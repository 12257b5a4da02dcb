import Drddr.Machine.Memory
import Drddr.Machine.Pool

/-!
# The breakpoint table

The tables and flags of `drddr-bp.c`, with the memory whose bytes they patch. Each
operation that the source runs under `bp_lock` is one pure function of that state.
The arrays are total maps of an index; the source reads them below `bp_count` only.
-/

namespace Drddr

open Machine

/-- The one-byte breakpoint instruction. -/
def INT3 : Byte := 0xCC

/-- Capacity of the address tables. -/
def N_ADDRESS : Nat := 131072

/-- `bp_state_t`. -/
inductive BpState where
  | UNUSED
  | USING
  | TRIGGERED
  deriving DecidableEq, Repr

/-- The globals of `drddr-bp.c` and the memory its entries point into. -/
structure Bp where
  /-- Listed addresses. -/
  bpAddr : Nat → Word
  /-- Whether an entry is armed. -/
  bpState : Nat → BpState
  /-- The byte an armed entry replaced. -/
  bpBackup : Nat → Byte
  /-- Entries in use, a C `int`. -/
  bpCount : Int
  /-- Handlers between their increment and their decrement. -/
  bpTrapCount : Int
  /-- Set by `bp_clean`, reset by `bp_init`. -/
  bpStopping : Bool
  /-- Kernel memory. -/
  text : Memory

/-- Memory full of one-byte no-ops. -/
def noops : Memory := fun _ => 0x90

namespace Bp

variable (s : Bp)

/-- `bp_usage_count`. -/
def bpUsageCount : Int := (List.range s.bpCount.toNat).countP (s.bpState · = .USING)

/-- The body of the loop of `bp_init`; making the page writable leaves the bytes alone. -/
def bpInitEntry (i : Nat) (a : Word) : Bp :=
  { s with
    bpAddr := Function.update s.bpAddr i a
    bpState := Function.update s.bpState i .UNUSED }

/-- `bp_init`. -/
def bpInit (addrList : Nat → Word) (addrLength : Int) : Bp :=
  let filled := (List.range addrLength.toNat).foldl (fun s i => s.bpInitEntry i (addrList i))
    { s with bpCount := addrLength }
  { filled with bpTrapCount := 0, bpStopping := false }

/-- `bp_check`. -/
def bpCheck (address : Word) : Bool := (List.range s.bpCount.toNat).any (s.bpAddr · = address)

/-- The entry that `_bp_remove` finds: the first armed one at the address. -/
def findArmed (address : Word) : Option Nat :=
  (List.range s.bpCount.toNat).find? fun i => s.bpAddr i = address ∧ s.bpState i = .USING

/-- Put the replaced byte of an entry back. -/
def disarm (i : Nat) : Bp :=
  { s with
    text := s.text.set (s.bpAddr i) (s.bpBackup i)
    bpState := Function.update s.bpState i .UNUSED }

/-- `_bp_remove`, which is all that `bp_remove` does under the lock. -/
def bpRemove (address : Word) : Bool × Bp :=
  match s.findArmed address with
  | some i => (true, s.disarm i)
  | none => (false, s)

/-- Back the byte of an entry up and plant the breakpoint. -/
def arm (i : Nat) : Bp :=
  { s with
    bpState := Function.update s.bpState i .USING
    bpBackup := Function.update s.bpBackup i (s.text (s.bpAddr i))
    text := s.text.set (s.bpAddr i) INT3 }

/-- The loop of `bp_add(-1)`: draw until an entry is not armed. `none` means that the
draws supplied so far have not ended the loop. The draws left over are returned. -/
def randomPick : List (BitVec 32) → Option (Nat × List (BitVec 32))
  | [] => none
  | draw :: draws =>
    let i := (draw % BitVec.ofInt 32 s.bpCount).toNat
    if s.bpState i = .USING then randomPick draws else some (i, draws)

/-- The locked section of `bp_add`. A negative choice other than -1 would index before the
tables, which C leaves undefined; no caller passes one. -/
def bpAddLocked (choice : Int) (draws : List (BitVec 32)) :
    Option (Bool × Bp × List (BitVec 32)) :=
  if choice = -1 then
    if s.bpUsageCount = s.bpCount then some (false, s, draws)
    else (s.randomPick draws).map fun (i, rest) => (true, s.arm i, rest)
  else if s.bpCount ≤ choice then some (false, s, draws)
  else if choice < 0 then none
  else if s.bpState choice.toNat = .USING then some (false, s, draws)
  else some (true, s.arm choice.toNat, draws)

/-- `bp_add` as one call: the flag is read before the lock is taken. -/
def bpAdd (choice : Int) (draws : List (BitVec 32)) : Option (Bool × Bp × List (BitVec 32)) :=
  if s.bpStopping then some (false, s, draws) else s.bpAddLocked choice draws

/-- `bp_inc_trapped`. -/
def bpIncTrapped : Bool × Bp :=
  if s.bpStopping then (false, s) else (true, { s with bpTrapCount := s.bpTrapCount + 1 })

/-- `bp_dec_trapped`. -/
def bpDecTrapped : Bp := { s with bpTrapCount := s.bpTrapCount - 1 }

/-- The body of the loop of `bp_clean`. -/
def cleanEntry (i : Nat) : Bp :=
  if s.bpState i = .USING then (s.bpRemove (s.bpAddr i)).2 else s

/-- The locked section of `bp_clean`. -/
def bpCleanLocked : Bp :=
  { (List.range s.bpCount.toNat).foldl cleanEntry s with bpStopping := true }

/-- `bp_clean` with nobody else running: the poll of the trap count leaves at once or, with
no handler to lower the count, never. -/
def bpClean : Option Bp :=
  if s.bpCleanLocked.bpTrapCount = 0 then some s.bpCleanLocked else none

/-- The globals when the module is loaded: no session has been opened. -/
def loaded (text : Memory) : Bp where
  bpAddr _ := 0
  bpState _ := .UNUSED
  bpBackup _ := 0
  bpCount := 0
  bpTrapCount := 0
  bpStopping := false
  text := text

/-! ## What each operation reads and writes -/

variable {s}

/-- An entry is armed: below the count and in state `USING`. -/
def Armed (s : Bp) (i : Nat) : Prop := (i : Int) < s.bpCount ∧ s.bpState i = .USING

instance (s : Bp) (i : Nat) : Decidable (s.Armed i) :=
  inferInstanceAs (Decidable (_ ∧ _))

/-- An address is listed: some entry below the count holds it. -/
def Listed (s : Bp) (a : Word) : Prop := ∃ i : Nat, (i : Int) < s.bpCount ∧ s.bpAddr i = a

/-- Disarming an entry leaves the addresses. -/
@[simp] theorem disarm_bpAddr (i : Nat) : (s.disarm i).bpAddr = s.bpAddr := rfl

/-- Disarming an entry leaves the backups. -/
@[simp] theorem disarm_bpBackup (i : Nat) : (s.disarm i).bpBackup = s.bpBackup := rfl

/-- Disarming an entry leaves the count of entries. -/
@[simp] theorem disarm_bpCount (i : Nat) : (s.disarm i).bpCount = s.bpCount := rfl

/-- Disarming an entry leaves the trap count. -/
@[simp] theorem disarm_bpTrapCount (i : Nat) : (s.disarm i).bpTrapCount = s.bpTrapCount := rfl

/-- Disarming an entry leaves the flag. -/
@[simp] theorem disarm_bpStopping (i : Nat) : (s.disarm i).bpStopping = s.bpStopping := rfl

/-- Arming an entry leaves the addresses. -/
@[simp] theorem arm_bpAddr (i : Nat) : (s.arm i).bpAddr = s.bpAddr := rfl

/-- Arming an entry leaves the count of entries. -/
@[simp] theorem arm_bpCount (i : Nat) : (s.arm i).bpCount = s.bpCount := rfl

/-- Arming an entry leaves the trap count. -/
@[simp] theorem arm_bpTrapCount (i : Nat) : (s.arm i).bpTrapCount = s.bpTrapCount := rfl

/-- Arming an entry leaves the flag. -/
@[simp] theorem arm_bpStopping (i : Nat) : (s.arm i).bpStopping = s.bpStopping := rfl

/-- Arming adds one entry to the armed ones. -/
theorem armed_arm {i k : Nat} (below : (i : Int) < s.bpCount) :
    (s.arm i).Armed k ↔ k = i ∨ s.Armed k := by
  by_cases same : k = i
  · subst same
    simp [Armed, arm, below]
  · simp [Armed, arm, same]

/-- Disarming takes one entry out of the armed ones. -/
theorem armed_disarm {i k : Nat} : (s.disarm i).Armed k ↔ k ≠ i ∧ s.Armed k := by
  by_cases same : k = i
  · subst same
    simp [Armed, disarm]
  · simp [Armed, disarm, same]

/-- The check succeeds exactly on listed addresses. -/
theorem bpCheck_eq_true {a : Word} : s.bpCheck a = true ↔ s.Listed a := by
  simp only [bpCheck, List.any_eq_true, List.mem_range, decide_eq_true_eq, Listed]
  constructor
  · rintro ⟨i, below, same⟩
    exact ⟨i, by omega, same⟩
  · rintro ⟨i, below, same⟩
    exact ⟨i, by omega, same⟩

/-- The found entry is armed at the address, and no earlier one is. -/
theorem findArmed_eq_some {a : Word} {i : Nat} : s.findArmed a = some i ↔
    s.Armed i ∧ s.bpAddr i = a ∧ ∀ k < i, ¬(s.Armed k ∧ s.bpAddr k = a) := by
  simp only [findArmed, List.find?_range_eq_some, decide_eq_true_eq, List.mem_range, Armed,
    Bool.not_eq_eq_eq_not, Bool.not_true, decide_eq_false_iff_not]
  constructor
  · rintro ⟨⟨same, used⟩, below, first⟩
    exact ⟨⟨by omega, used⟩, same, fun k hk h => first k hk ⟨h.2, h.1.2⟩⟩
  · rintro ⟨⟨below, used⟩, same, first⟩
    exact ⟨⟨same, used⟩, by omega, fun k hk h => first k hk ⟨⟨by omega, h.2⟩, h.1⟩⟩

/-- No entry is found exactly when none is armed at the address. -/
theorem findArmed_eq_none {a : Word} : s.findArmed a = none ↔
    ∀ i, s.Armed i → s.bpAddr i ≠ a := by
  simp only [findArmed, List.find?_eq_none, List.mem_range, decide_eq_true_eq, Armed]
  constructor
  · rintro absent i ⟨below, used⟩ same
    exact absent i (by omega) ⟨same, used⟩
  · rintro absent i below ⟨same, used⟩
    exact absent i ⟨by omega, used⟩ same

/-- Removal either restores the first armed entry at the address or changes nothing. -/
theorem bpRemove_cases (a : Word) :
    (∃ i, s.findArmed a = some i ∧ s.bpRemove a = (true, s.disarm i)) ∨
      (s.findArmed a = none ∧ s.bpRemove a = (false, s)) := by
  cases found : s.findArmed a with
  | some i => exact .inl ⟨i, rfl, by simp [bpRemove, found]⟩
  | none => exact .inr ⟨rfl, by simp [bpRemove, found]⟩

/-- The count of armed entries reads the states below the count. -/
theorem bpUsageCount_congr {t : Bp} (count : t.bpCount = s.bpCount)
    (state : t.bpState = s.bpState) : t.bpUsageCount = s.bpUsageCount := by
  rw [bpUsageCount, bpUsageCount, count, state]

/-- Taking an armed entry off lowers the count of them. -/
theorem bpUsageCount_disarm {i : Nat} (armed : s.Armed i) :
    (s.disarm i).bpUsageCount = s.bpUsageCount - 1 := by
  have inside : i < s.bpCount.toNat := by
    have below := armed.1
    omega
  have changed := countP_range_update (fun v => decide (v = BpState.USING)) s.bpState .UNUSED inside
  simp only [weight, armed.2, decide_true, if_true, reduceCtorEq, decide_false, Bool.false_eq_true,
    if_false] at changed
  exact changed

/-- Planting a free entry raises the number of armed ones by one. -/
theorem bpUsageCount_arm {i : Nat} (below : (i : Int) < s.bpCount) (free : s.bpState i ≠ .USING) :
    (s.arm i).bpUsageCount = s.bpUsageCount + 1 := by
  have inside : i < s.bpCount.toNat := by omega
  have changed := countP_range_update (fun v => decide (v = BpState.USING)) s.bpState .USING inside
  simp only [weight, free, decide_true, if_true, decide_false, Bool.false_eq_true, if_false]
    at changed
  exact changed

/-- With fewer armed entries than entries one is free. -/
theorem exists_free (fewer : s.bpUsageCount < s.bpCount) :
    ∃ i : Nat, (i : Int) < s.bpCount ∧ s.bpState i ≠ .USING := by
  by_contra none
  push Not at none
  have all : (List.range s.bpCount.toNat).countP (s.bpState · = .USING)
      = (List.range s.bpCount.toNat).length := by
    rw [List.countP_eq_length]
    intro i member
    have inside := List.mem_range.mp member
    simpa using none i (by omega)
  rw [bpUsageCount, all, List.length_range] at fewer
  omega

/-- A handler is counted exactly when the flag is clear. -/
theorem bpIncTrapped_cases :
    (s.bpStopping = true ∧ s.bpIncTrapped = (false, s)) ∨
      (s.bpStopping = false ∧
        s.bpIncTrapped = (true, { s with bpTrapCount := s.bpTrapCount + 1 })) := by
  cases flag : s.bpStopping with
  | true => exact .inl ⟨rfl, by simp [bpIncTrapped, flag]⟩
  | false => exact .inr ⟨rfl, by rw [bpIncTrapped, if_neg (by simp [flag]), flag]⟩

/-- A drawn entry is below the count, if that is positive, and not armed. -/
theorem randomPick_spec {draws rest : List (BitVec 32)} {i : Nat}
    (picked : s.randomPick draws = some (i, rest)) :
    (0 < s.bpCount → (i : Int) < s.bpCount) ∧ s.bpState i ≠ .USING := by
  induction draws with
  | nil => simp [randomPick] at picked
  | cons draw draws ih =>
    simp only [randomPick] at picked
    split at picked
    · exact ih picked
    · rename_i free
      simp only [Option.some.injEq, Prod.mk.injEq] at picked
      obtain ⟨rfl, -⟩ := picked
      refine ⟨fun positive => ?_, free⟩
      -- The modulus is the count reduced to 32 bits, and a zero modulus returns the draw.
      have small := draw.isLt
      simp only [BitVec.toNat_umod, BitVec.toNat_ofInt]
      rcases Nat.eq_zero_or_pos (s.bpCount % ((2 ^ 32 : Nat) : Int)).toNat with zero | pos
      · rw [zero, Nat.mod_zero]
        omega
      · have below := Nat.mod_lt draw.toNat pos
        omega

/-- With no entries there are no armed ones to count. -/
theorem bpUsageCount_of_empty (h : s.bpCount = 0) : s.bpUsageCount = 0 := by
  simp [bpUsageCount, h]

/-- Everything the locked section of `bp_add` can do: refuse, or arm one free entry. -/
theorem bpAddLocked_spec {choice : Int} {draws rest : List (BitVec 32)} {ok : Bool} {t : Bp}
    (added : s.bpAddLocked choice draws = some (ok, t, rest)) :
    (ok = false ∧ t = s) ∨
      (ok = true ∧ ∃ i : Nat, (0 ≤ s.bpCount → (i : Int) < s.bpCount) ∧ s.bpState i ≠ .USING ∧
        t = s.arm i) := by
  unfold bpAddLocked at added
  split at added
  · split at added
    · simp only [Option.some.injEq, Prod.mk.injEq] at added
      exact .inl ⟨added.1.symm, added.2.1.symm⟩
    · rename_i room
      obtain ⟨⟨i, left⟩, picked, same⟩ := Option.map_eq_some_iff.mp added
      simp only [Prod.mk.injEq] at same
      obtain ⟨below, free⟩ := randomPick_spec picked
      have inside (count : 0 ≤ s.bpCount) : (i : Int) < s.bpCount := by
        rcases count.lt_or_eq with pos | zero
        · exact below pos
        · exact absurd ((bpUsageCount_of_empty zero.symm).trans zero) room
      exact .inr ⟨same.1.symm, i, inside, free, same.2.1.symm⟩
  · split at added
    · simp only [Option.some.injEq, Prod.mk.injEq] at added
      exact .inl ⟨added.1.symm, added.2.1.symm⟩
    · split at added
      · contradiction
      · split at added
        · simp only [Option.some.injEq, Prod.mk.injEq] at added
          exact .inl ⟨added.1.symm, added.2.1.symm⟩
        · rename_i free
          simp only [Option.some.injEq, Prod.mk.injEq] at added
          exact .inr ⟨added.1.symm, choice.toNat, fun _ => by omega, free, added.2.1.symm⟩

/-- With a count that is not negative, the entry that is armed is below it. -/
theorem bpAddLocked_cases {choice : Int} {draws rest : List (BitVec 32)} {ok : Bool} {t : Bp}
    (count : 0 ≤ s.bpCount) (added : s.bpAddLocked choice draws = some (ok, t, rest)) :
    (ok = false ∧ t = s) ∨
      (ok = true ∧ ∃ i : Nat, (i : Int) < s.bpCount ∧ s.bpState i ≠ .USING ∧ t = s.arm i) := by
  rcases bpAddLocked_spec added with refused | ⟨armed, i, below, free, same⟩
  · exact .inl refused
  · exact .inr ⟨armed, i, below count, free, same⟩

/-- The loop of `bp_init` has filled the entries below its index. -/
theorem bpInit_loop (s : Bp) (addrList : Nat → Word) (n : Nat) :
    (List.range n).foldl (fun s i => s.bpInitEntry i (addrList i)) s =
      { s with
        bpAddr := fun i => if i < n then addrList i else s.bpAddr i
        bpState := fun i => if i < n then .UNUSED else s.bpState i } := by
  induction n with
  | zero => simp
  | succ n ih =>
    rw [List.range_succ, List.foldl_append, ih]
    simp only [List.foldl_cons, List.foldl_nil, bpInitEntry, Bp.mk.injEq, and_true]
    constructor <;> funext i <;> by_cases last : i = n
    · subst last; simp
    · simp [last, show i < n + 1 ↔ i < n by omega]
    · subst last; simp
    · simp [last, show i < n + 1 ↔ i < n by omega]

/-- `bp_init` lists the given addresses, arms none of them and leaves the memory alone. -/
theorem bpInit_eq (s : Bp) (addrList : Nat → Word) (n : Nat) : s.bpInit addrList n =
    { s with
      bpAddr := fun i => if i < n then addrList i else s.bpAddr i
      bpState := fun i => if i < n then .UNUSED else s.bpState i
      bpCount := n
      bpTrapCount := 0
      bpStopping := false } := by
  simp only [bpInit, Int.toNat_natCast, bpInit_loop]

/-- No entry is armed after `bp_init`. -/
theorem not_armed_bpInit (s : Bp) (addrList : Nat → Word) (n i : Nat) :
    ¬(s.bpInit addrList n).Armed i := by
  rw [bpInit_eq]
  rintro ⟨below, used⟩
  have inside : i < n := Int.ofNat_lt.mp below
  simp [inside] at used

/-- The loop of `bp_clean` disarms the armed entries in ascending order: when it reaches an
armed entry, no lower one is armed any more. A property that each such removal keeps holds
after the loop, and the entries passed are not armed. -/
theorem clean_loop {P : Bp → Prop}
    (keeps : ∀ t i, P t → t.Armed i → (∀ k, t.Armed k → i ≤ k) → P (t.disarm i))
    (start : P s) (n : Nat) (le : (n : Int) ≤ s.bpCount) :
    let t := (List.range n).foldl cleanEntry s
    P t ∧ t.bpCount = s.bpCount ∧ ∀ k, t.Armed k → n ≤ k := by
  induction n with
  | zero => exact ⟨start, rfl, fun k _ => Nat.zero_le k⟩
  | succ n ih =>
    obtain ⟨holds, count, passed⟩ := ih (by omega)
    rw [List.range_succ, List.foldl_append]
    generalize (List.range n).foldl cleanEntry s = t at holds count passed
    simp only [List.foldl_cons, List.foldl_nil, cleanEntry]
    have above {u : Bp} (sub : ∀ k, u.Armed k → t.Armed k ∧ k ≠ n) (k : Nat) (h : u.Armed k) :
        n + 1 ≤ k := by
      have := passed k (sub k h).1
      have := (sub k h).2
      omega
    by_cases used : t.bpState n = .USING
    · have armed : t.Armed n := ⟨by omega, used⟩
      have found : t.findArmed (t.bpAddr n) = some n :=
        findArmed_eq_some.mpr ⟨armed, rfl, fun k lower h => by have := passed k h.1; omega⟩
      simp only [used, ↓reduceIte, bpRemove, found]
      exact ⟨keeps t n holds armed passed, count,
        above fun k h => ⟨(armed_disarm.mp h).2, (armed_disarm.mp h).1⟩⟩
    · simp only [used, ↓reduceIte]
      exact ⟨holds, count, above fun k h => ⟨h, fun same => used (same ▸ h.2)⟩⟩

/-- A property of the tables and the memory that every removal keeps holds after the locked
section of `bp_clean`, which leaves no entry armed. -/
theorem bpCleanLocked_spec {P : Bp → Prop}
    (keeps : ∀ t i, P t → t.Armed i → (∀ k, t.Armed k → i ≤ k) → P (t.disarm i))
    (stop : ∀ t, P t → P { t with bpStopping := true }) (start : P s) :
    P s.bpCleanLocked ∧ ∀ k, ¬s.bpCleanLocked.Armed k := by
  by_cases count : 0 ≤ s.bpCount
  · obtain ⟨holds, same, passed⟩ := clean_loop keeps start s.bpCount.toNat (by omega)
    refine ⟨stop _ holds, fun k armed => ?_⟩
    have := passed k armed
    have : (k : Int) < _ := armed.1
    simp only [bpCleanLocked, same] at this
    omega
  · refine ⟨?_, fun k armed => ?_⟩
    · simp only [bpCleanLocked, show s.bpCount.toNat = 0 by omega, List.range_zero, List.foldl_nil]
      exact stop _ start
    · have : (k : Int) < _ := armed.1
      simp only [bpCleanLocked, show s.bpCount.toNat = 0 by omega, List.range_zero,
        List.foldl_nil] at this
      omega

/-- The locked section of `bp_clean` leaves the trap count alone. -/
theorem bpCleanLocked_bpTrapCount : s.bpCleanLocked.bpTrapCount = s.bpTrapCount :=
  (bpCleanLocked_spec (P := fun u => u.bpTrapCount = s.bpTrapCount) (fun _ _ hu _ _ => hu)
    (fun _ hu => hu) rfl).1

/-- The locked section of `bp_add` leaves the trap count and the flag alone. -/
theorem bpAddLocked_flags {choice : Int} {draws rest : List (BitVec 32)} {ok : Bool} {t : Bp}
    (added : s.bpAddLocked choice draws = some (ok, t, rest)) :
    t.bpTrapCount = s.bpTrapCount ∧ t.bpStopping = s.bpStopping := by
  rcases bpAddLocked_spec added with ⟨-, rfl⟩ | ⟨-, i, -, -, rfl⟩
  · exact ⟨rfl, rfl⟩
  · exact ⟨rfl, rfl⟩

/-- What is listed depends on the addresses and the count. -/
theorem listed_congr {t : Bp} (addr : t.bpAddr = s.bpAddr) (count : t.bpCount = s.bpCount)
    {a : Word} : t.Listed a ↔ s.Listed a := by
  rw [Listed, Listed, addr, count]

/-- Two tables have one list, and every byte off the list is the same. -/
structure SameList (s t : Bp) : Prop where
  addr : t.bpAddr = s.bpAddr
  count : t.bpCount = s.bpCount
  text : ∀ a, ¬s.Listed a → t.text a = s.text a

/-- Two changes that keep the list keep it together. -/
theorem SameList.trans {t u : Bp} (first : SameList s t) (second : SameList t u) :
    SameList s u := by
  refine ⟨second.addr.trans first.addr, second.count.trans first.count, fun a off => ?_⟩
  have still : ¬t.Listed a := fun listed => off ((listed_congr first.addr first.count).mp listed)
  exact (second.text a still).trans (first.text a off)

/-- A write at a listed address keeps the list. -/
theorem sameList_set {i : Nat} (below : (i : Int) < s.bpCount) {t : Bp} {b : Byte}
    (addr : t.bpAddr = s.bpAddr) (count : t.bpCount = s.bpCount)
    (text : t.text = s.text.set (s.bpAddr i) b) : SameList s t := by
  refine ⟨addr, count, fun a off => ?_⟩
  have other : a ≠ s.bpAddr i := fun same => off ⟨i, below, same.symm⟩
  rw [text, Memory.set_of_ne _ _ other]

/-- `bp_clean` writes at listed addresses. -/
theorem sameList_bpCleanLocked : SameList s s.bpCleanLocked := by
  refine (bpCleanLocked_spec (P := SameList s) (fun t i same armed _ => ?_) (fun t same => ?_)
    ⟨rfl, rfl, fun _ _ => rfl⟩).1
  · exact same.trans (sameList_set armed.1 rfl rfl rfl)
  · exact ⟨same.addr, same.count, same.text⟩

/-- The locked section of `bp_add` keeps the list. -/
theorem sameList_bpAddLocked (count : 0 ≤ s.bpCount) {choice : Int} {draws rest : List (BitVec 32)}
    {ok : Bool} {t : Bp} (added : s.bpAddLocked choice draws = some (ok, t, rest)) :
    SameList s t := by
  rcases bpAddLocked_cases count added with ⟨-, rfl⟩ | ⟨-, i, below, -, rfl⟩
  · exact ⟨rfl, rfl, fun _ _ => rfl⟩
  · exact sameList_set below rfl rfl rfl

end Bp

end Drddr
