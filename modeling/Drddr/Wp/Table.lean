import Drddr.PtRegs
import Mathlib.Data.Fintype.Pi
import Mathlib.Logic.Relation

/-!
# The watchpoint table

The four-slot table of `drddr-wp.c`. `wp_add` is given both as the steps its callers can
observe (the flag reads outside the lock, the locked section, the read of the counter
after the unlock) and as one undisturbed call. Counters keep their C widths, because an
identifier stores a sequence number in thirty signed bits.
-/

namespace Drddr

open Machine

/-- Numerals name the four slots. -/
instance neZero_slots : NeZero 4 := ⟨by decide⟩

/-- `struct watchpoint_id`: a two-bit slot and a signed thirty-bit number. -/
structure WatchpointId where
  /-- `dr`. -/
  dr : Fin 4
  /-- `num`; zero is the wildcard, negative is invalid. -/
  num : BitVec 30
  deriving DecidableEq, Repr

/-- `watchpoint_id_is_valid`. -/
def WatchpointId.isValid (id : WatchpointId) : Bool := decide (0 ≤ id.num.toInt)

/-- An identifier after `watchpoint_id_set_invalid`. No caller reads the slot of one. -/
def WatchpointId.invalid : WatchpointId := ⟨0, -1⟩

/-- The arguments of `wp_add`, with the processor number and the stack trace it records. -/
structure WpRequest where
  dataAddr : Word
  /-- Length in bits. -/
  dataLength : Int
  isWrite : Bool
  regs : PtRegs
  cpuid : Int
  trace : List Word
  deriving DecidableEq

/-- The globals of `drddr-wp.c`. -/
structure WpTable where
  wpUsage : Fin 4 → Bool
  wpAddr : Fin 4 → Word
  wpLength : Fin 4 → Int
  wpIswrite : Fin 4 → Bool
  wpTrace : Fin 4 → List Word
  wpRegs : Fin 4 → PtRegs
  wpCpuid : Fin 4 → Int
  wpTotalCount : BitVec 32
  wpNum : Fin 4 → BitVec 32

namespace WpTable

variable (t : WpTable)

/-- The search of `wp_add`: the lowest slot not in use. -/
def freeSlot : Option (Fin 4) := (List.finRange 4).find? fun i => !t.wpUsage i

/-- Fill a slot and give the installation the next sequence number. -/
def install (slot : Fin 4) (req : WpRequest) : WpTable where
  wpUsage := Function.update t.wpUsage slot true
  wpAddr := Function.update t.wpAddr slot req.dataAddr
  wpLength := Function.update t.wpLength slot req.dataLength
  wpIswrite := Function.update t.wpIswrite slot req.isWrite
  wpTrace := Function.update t.wpTrace slot req.trace
  wpRegs := Function.update t.wpRegs slot req.regs
  wpCpuid := Function.update t.wpCpuid slot req.cpuid
  wpTotalCount := t.wpTotalCount + 1
  wpNum := Function.update t.wpNum slot (t.wpTotalCount + 1)

/-- Release a slot; its other columns keep their contents. -/
def release (slot : Fin 4) : WpTable :=
  { t with wpUsage := Function.update t.wpUsage slot false }

/-- `wp_remove`: the two members of the comparison are promoted to `int`. -/
def wpRemove (id : WatchpointId) : WpTable :=
  if id.num = 0 ∨ id.num.signExtend 32 = t.wpNum id.dr then t.release id.dr else t

/-- `wp_init`. -/
def wpInit : WpTable := { t with wpUsage := fun _ => false, wpTotalCount := 0 }

/-- `wp_clean`. -/
def wpClean : WpTable := { t with wpUsage := fun _ => false }

/-- The globals when the module is loaded. -/
def loaded : WpTable where
  wpUsage _ := false
  wpAddr _ := 0
  wpLength _ := 0
  wpIswrite _ := false
  wpTrace _ := []
  wpRegs _ := default
  wpCpuid _ := 0
  wpTotalCount := 0
  wpNum _ := 0

end WpTable

/-- `wp_query`: the lowest status bit set in the debug status register. -/
def wpQuery (dr6 : Word) : WatchpointId :=
  match (List.finRange 4).find? fun i : Fin 4 => dr6 &&& (1 : Word) <<< i.val ≠ 0 with
  | some i => ⟨i, 0⟩
  | none => .invalid

/-- What `wp_report` prints of one slot. -/
structure WpReport where
  dr : Fin 4
  instructionAddress : Word
  accessedAddress : Word
  iswrite : Bool
  length : Int
  cpuid : Int
  regs : PtRegs
  trace : List Word

/-- `wp_report`. -/
def wpReport (t : WpTable) (id : WatchpointId) : WpReport where
  dr := id.dr
  instructionAddress := (t.wpRegs id.dr).ip
  accessedAddress := t.wpAddr id.dr
  iswrite := t.wpIswrite id.dr
  length := t.wpLength id.dr
  cpuid := t.wpCpuid id.dr
  regs := t.wpRegs id.dr
  trace := t.wpTrace id.dr

/-- Where a processor is inside `wp_add`. -/
inductive WpAddPc where
  /-- Reading `wp_usage[k]` before the lock. -/
  | test (k : Fin 4) (req : WpRequest)
  /-- About to take the lock. -/
  | lock (req : WpRequest)
  /-- Unlocked, `id.dr` assigned, `wp_total_count` not yet read. -/
  | number (slot : Fin 4)
  /-- Returning. -/
  | done (id : WatchpointId)
  deriving DecidableEq

/-- One step of `wp_add`. -/
def wpAddStep (t : WpTable) : WpAddPc → Option (WpTable × WpAddPc)
  | .test k req =>
    if !t.wpUsage k then some (t, .lock req)
    else if h : k.val + 1 < 4 then some (t, .test ⟨k.val + 1, h⟩ req)
    else some (t, .done .invalid)
  | .lock req =>
    match t.freeSlot with
    | some slot => some (t.install slot req, .number slot)
    | none => some (t, .done .invalid)
  | .number slot => some (t, .done ⟨slot, t.wpTotalCount.setWidth 30⟩)
  | .done _ => none

/-- `wp_add` with nobody else running. -/
def wpAdd (t : WpTable) (req : WpRequest) : WpTable × WatchpointId :=
  match t.freeSlot with
  | some slot => (t.install slot req, ⟨slot, (t.install slot req).wpTotalCount.setWidth 30⟩)
  | none => (t, .invalid)

/-- A search of the slots in their order finds the lowest one. -/
theorem find_slot_eq_some : ∀ (p : Fin 4 → Bool) (slot : Fin 4),
    (List.finRange 4).find? p = some slot ↔ p slot = true ∧ ∀ k < slot, p k = false := by
  decide

namespace WpTable

variable {t : WpTable}

/-- The slot found is not in use, and every lower one is. -/
theorem freeSlot_eq_some {slot : Fin 4} :
    t.freeSlot = some slot ↔ t.wpUsage slot = false ∧ ∀ k < slot, t.wpUsage k = true := by
  rw [freeSlot, find_slot_eq_some]
  simp

/-- No slot is found exactly when all are in use. -/
theorem freeSlot_eq_none : t.freeSlot = none ↔ ∀ k, t.wpUsage k = true := by
  simp [freeSlot]

/-- Removal releases the named slot or does nothing. -/
theorem wpRemove_cases (id : WatchpointId) :
    t.wpRemove id = t.release id.dr ∨ t.wpRemove id = t := by
  unfold wpRemove
  split
  · exact .inl rfl
  · exact .inr rfl

/-- Filling a slot counts the installation. -/
@[simp] theorem install_wpTotalCount (slot : Fin 4) (req : WpRequest) :
    (t.install slot req).wpTotalCount = t.wpTotalCount + 1 := rfl

/-- Freeing a slot leaves the count of installations. -/
@[simp] theorem release_wpTotalCount (slot : Fin 4) :
    (t.release slot).wpTotalCount = t.wpTotalCount := rfl

/-- Freeing a slot leaves its number. -/
@[simp] theorem release_wpNum (slot : Fin 4) : (t.release slot).wpNum = t.wpNum := rfl

end WpTable

/-! ## The steps and the call -/

/-- A step of `wp_add` when nobody else moves. -/
def WpAddAlone (s s' : WpTable × WpAddPc) : Prop := wpAddStep s.1 s.2 = some s'

/-- From a slot on is that slot and from the next one on. -/
theorem forall_from_slot {p : Fin 4 → Prop} {k : Fin 4} (inside : k.val + 1 < 4) :
    (∀ j, k ≤ j → p j) ↔ p k ∧ ∀ j, ⟨k.val + 1, inside⟩ ≤ j → p j := by
  constructor
  · intro all
    refine ⟨all k le_rfl, fun j above => all j ?_⟩
    have next : k.val + 1 ≤ j.val := above
    exact Fin.le_def.mpr (by omega)
  · rintro ⟨here, rest⟩ j above
    rcases above.eq_or_lt with same | beyond
    · exact same ▸ here
    · have next : k.val + 1 ≤ j.val := beyond
      exact rest j next

/-- The tests before the lock, from a slot on: they end at the first slot not in use. -/
theorem wpAdd_tests (t : WpTable) (req : WpRequest) (n : Nat) :
    ∀ k : Fin 4, k.val + n = 3 → Relation.ReflTransGen WpAddAlone (t, .test k req)
      (t, if ∀ j, k ≤ j → t.wpUsage j = true then .done .invalid else .lock req) := by
  induction n with
  | zero =>
    intro k last
    have only (j : Fin 4) : k ≤ j ↔ j = k := by
      rw [Fin.le_def, Fin.ext_iff]
      omega
    have noNext : ¬k.val + 1 < 4 := by omega
    have step : WpAddAlone (t, .test k req)
        (t, if t.wpUsage k = true then .done .invalid else .lock req) := by
      cases used : t.wpUsage k <;> simp [WpAddAlone, wpAddStep, used, noNext]
    simp only [only, forall_eq]
    exact .single step
  | succ n ih =>
    intro k place
    have inside : k.val + 1 < 4 := by omega
    have rest := ih ⟨k.val + 1, inside⟩ (by simp only; omega)
    simp only [forall_from_slot inside]
    cases used : t.wpUsage k with
    | false =>
      have step : WpAddAlone (t, .test k req) (t, .lock req) := by
        simp [WpAddAlone, wpAddStep, used]
      simp only [Bool.false_eq_true, false_and, if_false]
      exact .single step
    | true =>
      have step : WpAddAlone (t, .test k req) (t, .test ⟨k.val + 1, inside⟩ req) := by
        simp [WpAddAlone, wpAddStep, used, inside]
      simp only [true_and]
      exact .head step rest

/-- With nobody else moving, the steps of `wp_add` are the one call. -/
theorem wpAdd_undisturbed (t : WpTable) (req : WpRequest) :
    Relation.ReflTransGen WpAddAlone (t, .test 0 req)
      ((wpAdd t req).1, .done (wpAdd t req).2) := by
  have tests := wpAdd_tests t req 3 0 rfl
  cases free : t.freeSlot with
  | none =>
    have all := WpTable.freeSlot_eq_none.mp free
    rw [if_pos fun j _ => all j] at tests
    simpa only [wpAdd, free] using tests
  | some slot =>
    have unused := (WpTable.freeSlot_eq_some.mp free).1
    have partly : ¬∀ j, 0 ≤ j → t.wpUsage j = true := by
      intro all
      simp [all slot (Fin.zero_le slot)] at unused
    rw [if_neg partly] at tests
    have locked : WpAddAlone (t, .lock req) (t.install slot req, .number slot) := by
      simp only [WpAddAlone, wpAddStep, free]
    have numbered : WpAddAlone (t.install slot req, .number slot)
        ((wpAdd t req).1, .done (wpAdd t req).2) := by
      simp only [WpAddAlone, wpAddStep, wpAdd, free]
    exact (tests.tail locked).tail numbered

end Drddr
