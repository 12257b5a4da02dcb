import Drddr.Machine.Run
import Drddr.Wp.Table
import Mathlib.Data.Fin.VecNotation
import Mathlib.Tactic.FinCases

/-!
# The debug control word

`set_dr` packs four slots into one 64-bit control word. Each field is a shifted C `int`, so
it is a 32-bit value that is sign-extended when it is merged into the word. Moving a word
with any of its upper 32 bits set to the control register faults.
-/

namespace Drddr

open Machine

/-- `struct watch`. -/
structure Watch where
  /-- `dr0` to `dr3`. -/
  dr : Fin 4 → Word
  ctrl : Word

/-- `wp_len_to_flag`. -/
def wpLenToFlag (length : Int) : BitVec 32 :=
  if length = 8 then 0 else if length = 16 then 1 else if length = 32 then 3 else 2

/-- `wp_rw_to_flag`. -/
def wpRwToFlag (iswrite : Bool) : BitVec 32 := if iswrite then 3 else 1

/-- `TRAP_GLOBAL_DR0` to `TRAP_GLOBAL_DR3`. -/
def TRAP_GLOBAL_DR : Fin 4 → BitVec 32 := ![1#32 <<< 1, 1#32 <<< 3, 1#32 <<< 5, 1#32 <<< 7]

/-- `TRAP_LE`. -/
def TRAP_LE : BitVec 32 := 1#32 <<< 8

/-- `TRAP_GE`. -/
def TRAP_GE : BitVec 32 := 1#32 <<< 9

/-- `DR0_RW` to `DR3_RW`. -/
def DR_RW : Fin 4 → Nat := ![16, 20, 24, 28]

/-- `DR0_LEN` to `DR3_LEN`. -/
def DR_LEN : Fin 4 → Nat := ![18, 22, 26, 30]

/-- What the branch of a used slot merges into the control word, widened from `int`. -/
def slotCtrl (i : Fin 4) (rw len : BitVec 32) : Word :=
  (TRAP_GLOBAL_DR i).signExtend 64 ||| (rw <<< DR_RW i).signExtend 64 |||
    (len <<< DR_LEN i).signExtend 64

/-- The part of the control word that one slot contributes. -/
def WpTable.ctrlOf (t : WpTable) (i : Fin 4) : Word :=
  if t.wpUsage i then slotCtrl i (wpRwToFlag (t.wpIswrite i)) (wpLenToFlag (t.wpLength i)) else 0

/-- The structure that `set_dr` hands to every processor. -/
def setDr (t : WpTable) : Watch where
  dr i := if t.wpUsage i then t.wpAddr i else 0
  ctrl := (TRAP_LE ||| TRAP_GE).signExtend 64 ||| t.ctrlOf 0 ||| t.ctrlOf 1 ||| t.ctrlOf 2 |||
    t.ctrlOf 3

/-! ## What a control word means to the processor -/

/-- The global-enable bit of a slot. -/
def enableField (i : Fin 4) (ctrl : Word) : BitVec 1 := ctrl.extractLsb' (2 * i.val + 1) 1

/-- The access-type field of a slot. -/
def rwField (i : Fin 4) (ctrl : Word) : BitVec 2 := ctrl.extractLsb' (16 + 4 * i.val) 2

/-- The length field of a slot. -/
def lenField (i : Fin 4) (ctrl : Word) : BitVec 2 := ctrl.extractLsb' (18 + 4 * i.val) 2

/-- The upper half, which has to be zero. -/
def reservedField (ctrl : Word) : BitVec 32 := ctrl.extractLsb' 32 32

/-- The processor's code for a watched length in bytes. -/
def lenCode : Int → Option (BitVec 2)
  | 1 => some 0
  | 2 => some 1
  | 4 => some 3
  | 8 => some 2
  | _ => none

/-- A control word that is legal and says of each slot what the table says. -/
structure Dr7Faithful (t : WpTable) (ctrl : Word) : Prop where
  /-- The move to the control register does not fault. -/
  reserved : reservedField ctrl = 0
  /-- A slot is enabled exactly when it is in use. -/
  enabled : ∀ i, enableField i ctrl = 1 ↔ t.wpUsage i = true
  /-- Writes are watched for writes, reads for reads and writes. -/
  rw : ∀ i, t.wpUsage i = true → rwField i ctrl = if t.wpIswrite i then 3 else 1
  /-- The length code is that of the length in bytes. -/
  len : ∀ i, t.wpUsage i = true → some (lenField i ctrl) = lenCode (t.wpLength i / 8)

/-- A bit length of one access. -/
def LegalLength (length : Int) : Prop := length ∈ ([8, 16, 32, 64] : List Int)

instance (length : Int) : Decidable (LegalLength length) :=
  inferInstanceAs (Decidable (length ∈ _))

/-! ## Reading the packed fields -/

/-- The length flags are two-bit values. -/
theorem wpLenToFlag_code (length : Int) :
    ∃ code : Fin 4, wpLenToFlag length = BitVec.ofNat 32 code.val := by
  unfold wpLenToFlag
  split
  · exact ⟨0, rfl⟩
  · split
    · exact ⟨1, rfl⟩
    · split
      · exact ⟨3, rfl⟩
      · exact ⟨2, rfl⟩

/-- A used slot reads back as it was packed. -/
theorem slotCtrl_self : ∀ (i : Fin 4) (write : Bool) (code : Fin 4),
    enableField i (slotCtrl i (wpRwToFlag write) (BitVec.ofNat 32 code.val)) = 1 ∧
      rwField i (slotCtrl i (wpRwToFlag write) (BitVec.ofNat 32 code.val)) =
        (if write then 3 else 1) ∧
      lenField i (slotCtrl i (wpRwToFlag write) (BitVec.ofNat 32 code.val)) =
        BitVec.ofNat 2 code.val := by
  decide

/-- A used slot leaves the fields of every other slot clear. -/
theorem slotCtrl_other : ∀ (i j : Fin 4) (write : Bool) (code : Fin 4), i ≠ j →
    enableField i (slotCtrl j (wpRwToFlag write) (BitVec.ofNat 32 code.val)) = 0 ∧
      rwField i (slotCtrl j (wpRwToFlag write) (BitVec.ofNat 32 code.val)) = 0 ∧
      lenField i (slotCtrl j (wpRwToFlag write) (BitVec.ofNat 32 code.val)) = 0 := by
  decide

/-- Only the length field of the last slot reaches the sign bit of an `int`. -/
theorem slotCtrl_reserved : ∀ (i : Fin 4) (write : Bool) (code : Fin 4),
    reservedField (slotCtrl i (wpRwToFlag write) (BitVec.ofNat 32 code.val)) = 0 ↔
      ¬(i = 3 ∧ 2 ≤ code.val) := by
  decide

/-- The mode bits lie outside every slot and outside the reserved half. -/
theorem modeBits_fields : reservedField ((TRAP_LE ||| TRAP_GE).signExtend 64) = 0 ∧
    ∀ i : Fin 4, enableField i ((TRAP_LE ||| TRAP_GE).signExtend 64) = 0 ∧
      rwField i ((TRAP_LE ||| TRAP_GE).signExtend 64) = 0 ∧
      lenField i ((TRAP_LE ||| TRAP_GE).signExtend 64) = 0 := by
  decide

namespace WpTable

variable {t : WpTable}

/-- A slot leaves the fields of every other slot clear. -/
theorem ctrlOf_other {i j : Fin 4} (other : i ≠ j) :
    enableField i (t.ctrlOf j) = 0 ∧ rwField i (t.ctrlOf j) = 0 ∧ lenField i (t.ctrlOf j) = 0 := by
  unfold ctrlOf
  split
  · obtain ⟨code, eq⟩ := wpLenToFlag_code (t.wpLength j)
    rw [eq]
    exact slotCtrl_other i j (t.wpIswrite j) code other
  · simp [enableField, rwField, lenField]

/-- The enable bits of two merged words are merged. -/
theorem enableField_or (i : Fin 4) (x y : Word) :
    enableField i (x ||| y) = enableField i x ||| enableField i y :=
  BitVec.extractLsb'_or

/-- The access types of two merged words are merged. -/
theorem rwField_or (i : Fin 4) (x y : Word) : rwField i (x ||| y) = rwField i x ||| rwField i y :=
  BitVec.extractLsb'_or

/-- The lengths of two merged words are merged. -/
theorem lenField_or (i : Fin 4) (x y : Word) :
    lenField i (x ||| y) = lenField i x ||| lenField i y :=
  BitVec.extractLsb'_or

/-- The reserved halves of two merged words are merged. -/
theorem reservedField_or (x y : Word) :
    reservedField (x ||| y) = reservedField x ||| reservedField y :=
  BitVec.extractLsb'_or

/-- A field that merging respects and that every other slot leaves clear is the field of its
own slot. -/
theorem setDr_own {w : Nat} {field : Fin 4 → Word → BitVec w}
    (merge : ∀ i x y, field i (x ||| y) = field i x ||| field i y)
    (mode : ∀ i, field i ((TRAP_LE ||| TRAP_GE).signExtend 64) = 0)
    (other : ∀ i j, i ≠ j → field i (t.ctrlOf j) = 0) (i : Fin 4) :
    field i (setDr t).ctrl = field i (t.ctrlOf i) := by
  have slots : i = 0 ∨ i = 1 ∨ i = 2 ∨ i = 3 := by omega
  have merged : field i (setDr t).ctrl = field i (t.ctrlOf 0) ||| field i (t.ctrlOf 1) |||
      field i (t.ctrlOf 2) ||| field i (t.ctrlOf 3) := by
    simp only [setDr, merge, mode, BitVec.ofNat_eq_ofNat, BitVec.zero_or]
  rw [merged]
  rcases slots with rfl | rfl | rfl | rfl
  · simp [other 0 1, other 0 2, other 0 3]
  · simp [other 1 0, other 1 2, other 1 3]
  · simp [other 2 0, other 2 1, other 2 3]
  · simp [other 3 0, other 3 1, other 3 2]

/-- The fields of the whole word are the fields of each slot's own part. -/
theorem setDr_field (i : Fin 4) :
    enableField i (setDr t).ctrl = enableField i (t.ctrlOf i) ∧
      rwField i (setDr t).ctrl = rwField i (t.ctrlOf i) ∧
      lenField i (setDr t).ctrl = lenField i (t.ctrlOf i) := by
  have enable := setDr_own (t := t) enableField_or (fun i => (modeBits_fields.2 i).1)
    (fun _ _ ne => (ctrlOf_other ne).1) i
  have access := setDr_own (t := t) rwField_or (fun i => (modeBits_fields.2 i).2.1)
    (fun _ _ ne => (ctrlOf_other ne).2.1) i
  have length := setDr_own (t := t) lenField_or (fun i => (modeBits_fields.2 i).2.2)
    (fun _ _ ne => (ctrlOf_other ne).2.2) i
  exact ⟨enable, access, length⟩

/-- The reserved half is clear exactly when no slot reaches it. -/
theorem setDr_reserved :
    reservedField (setDr t).ctrl = 0 ↔ ∀ i, reservedField (t.ctrlOf i) = 0 := by
  have mode := modeBits_fields.1
  simp only [setDr, reservedField_or, mode, BitVec.ofNat_eq_ofNat, BitVec.zero_or,
    BitVec.or_eq_zero_iff, Fin.forall_fin_succ]
  simp [and_assoc]

/-- A slot reaches the reserved half exactly when it is the last one, in use, with a length
flag of two or three. -/
theorem ctrlOf_reserved (i : Fin 4) : reservedField (t.ctrlOf i) = 0 ↔
    ¬(i = 3 ∧ t.wpUsage i = true ∧ t.wpLength i ≠ 8 ∧ t.wpLength i ≠ 16) := by
  unfold ctrlOf
  split
  · rename_i used
    have code : ∃ code : Fin 4, wpLenToFlag (t.wpLength i) = BitVec.ofNat 32 code.val ∧
        (2 ≤ code.val ↔ t.wpLength i ≠ 8 ∧ t.wpLength i ≠ 16) := by
      unfold wpLenToFlag
      by_cases byte : t.wpLength i = 8
      · exact ⟨0, by simp [byte]⟩
      · by_cases half : t.wpLength i = 16
        · exact ⟨1, by simp [half]⟩
        · by_cases single : t.wpLength i = 32
          · exact ⟨3, by simp [single]⟩
          · exact ⟨2, by simp [byte, half, single]⟩
    obtain ⟨code, eq, large⟩ := code
    rw [eq, slotCtrl_reserved i (t.wpIswrite i) code, large]
    simp [used]
  · rename_i free
    simp [reservedField, free]

end WpTable

/-! ## Sequences of calls -/

/-- A call that changes the table. -/
inductive WpCall where
  | add (req : WpRequest)
  | remove (id : WatchpointId)
  | clean

/-- One whole call. -/
def wpCallStep (t : WpTable) : WpCall → Option WpTable
  | .add req => some (wpAdd t req).1
  | .remove id => some (t.wpRemove id)
  | .clean => some t.wpClean

/-- The last slot watches four or eight bytes. -/
def WideLast (t : WpTable) : Prop :=
  t.wpUsage 3 = true ∧ (t.wpLength 3 = 32 ∨ t.wpLength 3 = 64)

/-- Every slot in use watches the length of one access. -/
def LegalLengths (t : WpTable) : Prop := ∀ i, t.wpUsage i = true → LegalLength (t.wpLength i)

/-- The call does not put a watch of four or eight bytes into the last slot. -/
def NarrowLast (t : WpTable) : WpCall → Prop
  | .add req => t.freeSlot = some 3 → req.dataLength = 8 ∨ req.dataLength = 16
  | _ => True

/-- A new watch asks for the length of one access. -/
def LegalRequest : WpCall → Prop
  | .add req => LegalLength req.dataLength
  | _ => True

instance : DecidablePred LegalRequest
  | .add req => inferInstanceAs (Decidable (LegalLength req.dataLength))
  | .remove _ => isTrue trivial
  | .clean => isTrue trivial

namespace WpTable

variable {t : WpTable}

/-- A removal leaves no slot in use that was free, and no length changed. -/
theorem wpRemove_keeps (id : WatchpointId) (i : Fin 4) :
    ((t.wpRemove id).wpUsage i = true → t.wpUsage i = true) ∧
      (t.wpRemove id).wpLength i = t.wpLength i := by
  cases wpRemove_cases (t := t) id with
  | inl released =>
    rw [released]
    by_cases same : i = id.dr
    · subst same
      simp [release]
    · simp [release, Function.update_of_ne same]
  | inr unchanged => simp [unchanged]

/-- One call keeps every used length legal. -/
theorem legalLengths_step {t u : WpTable} {call : WpCall} (legal : LegalLengths t)
    (asked : LegalRequest call) (step : wpCallStep t call = some u) : LegalLengths u := by
  cases call with
  | add req =>
    have eq : u = (wpAdd t req).1 := (Option.some.inj step).symm
    subst eq
    unfold wpAdd
    cases free : t.freeSlot with
    | none => exact legal
    | some slot =>
      intro i used
      by_cases same : i = slot
      · subst same
        have length : LegalLength req.dataLength := asked
        simpa [install] using length
      · simp only [install, Function.update_of_ne same] at used ⊢
        exact legal i used
  | remove id =>
    have eq : u = t.wpRemove id := (Option.some.inj step).symm
    subst eq
    intro i used
    have keeps := wpRemove_keeps (t := t) id i
    rw [keeps.2]
    exact legal i (keeps.1 used)
  | clean =>
    have eq : u = t.wpClean := (Option.some.inj step).symm
    subst eq
    intro i used
    exact absurd used (by simp [wpClean])

/-- One call that does not widen the last slot leaves it narrow. -/
theorem narrow_step {t u : WpTable} {call : WpCall} (narrow : ¬WideLast t)
    (admitted : NarrowLast t call) (step : wpCallStep t call = some u) : ¬WideLast u := by
  cases call with
  | add req =>
    have eq : u = (wpAdd t req).1 := (Option.some.inj step).symm
    subst eq
    unfold wpAdd
    cases free : t.freeSlot with
    | none => exact narrow
    | some slot =>
      rintro ⟨used, wide⟩
      by_cases last : 3 = slot
      · subst last
        have small := admitted free
        simp only [install, Function.update_self] at wide
        omega
      · simp only [install, Function.update_of_ne last] at used wide
        exact narrow ⟨used, wide⟩
  | remove id =>
    have eq : u = t.wpRemove id := (Option.some.inj step).symm
    subst eq
    have keeps := wpRemove_keeps (t := t) id 3
    rintro ⟨used, wide⟩
    rw [keeps.2] at wide
    exact narrow ⟨keeps.1 used, wide⟩
  | clean =>
    have eq : u = t.wpClean := (Option.some.inj step).symm
    subst eq
    rintro ⟨used, -⟩
    exact absurd used (by simp [wpClean])

/-- With legal lengths, the reserved half is clear exactly when the last slot is narrow. -/
theorem setDr_reserved_iff (legal : LegalLengths t) :
    reservedField (setDr t).ctrl = 0 ↔ ¬WideLast t := by
  rw [setDr_reserved]
  constructor
  · rintro clear ⟨used, wide⟩
    have last := (ctrlOf_reserved 3).mp (clear 3)
    exact last ⟨rfl, used, by omega, by omega⟩
  · intro narrow i
    rw [ctrlOf_reserved]
    rintro ⟨rfl, used, notByte, notHalf⟩
    have length := legal 3 used
    simp only [LegalLength, List.mem_cons, List.not_mem_nil, or_false] at length
    exact narrow ⟨used, by omega⟩

/-- A legal bit length has the processor's code for its length in bytes. -/
theorem wpLenToFlag_lenCode {length : Int} (legal : LegalLength length) :
    some ((wpLenToFlag length).setWidth 2) = lenCode (length / 8) := by
  simp only [LegalLength, List.mem_cons, List.not_mem_nil, or_false] at legal
  rcases legal with rfl | rfl | rfl | rfl <;> rfl

/-- Every field of a slot in use says what the table says of it. -/
theorem ctrlOf_used {i : Fin 4} (used : t.wpUsage i = true) :
    enableField i (t.ctrlOf i) = 1 ∧
      rwField i (t.ctrlOf i) = (if t.wpIswrite i then 3 else 1) ∧
      lenField i (t.ctrlOf i) = (wpLenToFlag (t.wpLength i)).setWidth 2 := by
  obtain ⟨code, eq⟩ := wpLenToFlag_code (t.wpLength i)
  have fields := slotCtrl_self i (t.wpIswrite i) code
  have truncated : ∀ code : Fin 4,
      (BitVec.ofNat 32 code.val).setWidth 2 = BitVec.ofNat 2 code.val := by
    decide
  rw [ctrlOf, if_pos used, eq, truncated code]
  exact fields

/-- With legal lengths, the word is faithful exactly when the last slot is narrow. -/
theorem faithful_iff (legal : LegalLengths t) :
    Dr7Faithful t (setDr t).ctrl ↔ ¬WideLast t := by
  constructor
  · intro faithful
    exact (setDr_reserved_iff legal).mp faithful.reserved
  · intro narrow
    constructor
    · exact (setDr_reserved_iff legal).mpr narrow
    · intro i
      rw [(setDr_field i).1]
      cases used : t.wpUsage i with
      | true => simp [(ctrlOf_used used).1]
      | false => simp [ctrlOf, used, enableField]
    · intro i used
      rw [(setDr_field i).2.1]
      exact (ctrlOf_used used).2.1
    · intro i used
      rw [(setDr_field i).2.2, (ctrlOf_used used).2.2]
      exact wpLenToFlag_lenCode (legal i used)

end WpTable

/-- After every sequence of calls with legal lengths, the control word is legal and faithful
exactly when the last slot does not watch four or eight bytes; so it is after every sequence
none of whose calls gives the last slot such a watch. -/
theorem setDr_faithful_iff {t : WpTable} {calls : List WpCall} {u : WpTable}
    (lengths : ∀ call ∈ calls, LegalRequest call)
    (ran : run wpCallStep t.wpInit calls = some u) :
    (Dr7Faithful u (setDr u).ctrl ↔ ¬WideLast u) ∧
      (Admits wpCallStep NarrowLast t.wpInit calls → Dr7Faithful u (setDr u).ctrl) := by
  have fresh : LegalLengths t.wpInit := fun i used => absurd used (by simp [WpTable.wpInit])
  have legal : LegalLengths u :=
    run_admitted (fun _ _ _ => WpTable.legalLengths_step) fresh
      (admits_of_forall (fun call member _ => lengths call member) _) ran
  refine ⟨WpTable.faithful_iff legal, fun admitted => ?_⟩
  have empty : ¬WideLast t.wpInit := by simp [WideLast, WpTable.wpInit]
  have narrow : ¬WideLast u :=
    run_admitted (fun _ _ _ => WpTable.narrow_step) empty admitted ran
  exact (WpTable.faithful_iff legal).mpr narrow

/-- A request for a number of bits at an address, with everything else zero. -/
def plainRequest (addr : Word) (length : Int) (isWrite : Bool) : WpRequest where
  dataAddr := addr
  dataLength := length
  isWrite := isWrite
  regs := default
  cpuid := 0
  trace := []

/-- A watch of each length, the two-byte one in the last slot. -/
def narrowCalls : List WpCall :=
  [.add (plainRequest 0x1000 64 true), .add (plainRequest 0x2000 32 false),
    .add (plainRequest 0x3000 8 true), .add (plainRequest 0x4000 16 true)]

/-- Four eight-byte watches. -/
def wideCalls : List WpCall :=
  [.add (plainRequest 0x1000 64 true), .add (plainRequest 0x2000 64 true),
    .add (plainRequest 0x3000 64 true), .add (plainRequest 0x4000 64 true)]

/-- Four slots in use, the last of them narrow, give a faithful word. -/
theorem setDr_faithful_narrow : ∃ t, run wpCallStep WpTable.loaded.wpInit narrowCalls = some t ∧
    (∀ i, t.wpUsage i = true) ∧ Dr7Faithful t (setDr t).ctrl := by
  refine ⟨_, rfl, by decide, ?_⟩
  have legal : ∀ call ∈ narrowCalls, LegalRequest call := by decide
  have faithful := setDr_faithful_iff (t := WpTable.loaded) legal rfl
  exact faithful.1.mpr (by unfold WideLast; decide)

/-- Four eight-byte watches set every bit of the upper half. -/
theorem setDr_wide_faults : ∃ t, run wpCallStep WpTable.loaded.wpInit wideCalls = some t ∧
    (∀ call ∈ wideCalls, LegalRequest call) ∧ reservedField (setDr t).ctrl = 0xFFFFFFFF ∧
      ¬Dr7Faithful t (setDr t).ctrl := by
  refine ⟨_, rfl, by decide, by decide, ?_⟩
  intro faithful
  exact absurd faithful.reserved (by decide)

end Drddr
