import Drddr.Machine.Block
import Drddr.Wp.Control

/-!
# The debug registers

`set_dr` hands the table to every processor, which copies it to its debug registers. It skips a
zero address, as it skips the address of a slot not in use, so that a register keeps what an
earlier watch left in it.
-/

namespace Drddr

open Machine

/-- The debug registers of one processor that the driver writes. -/
structure DebugRegisters where
  /-- DR0 to DR3. -/
  dr : Fin 4 → Word
  /-- DR7. -/
  ctrl : Word

/-- `wp_set_to_register`, for a control word that the processor accepts. -/
def wpSetToRegister (watches : Watch) (r : DebugRegisters) : DebugRegisters where
  dr i := if watches.dr i ≠ 0 then watches.dr i else r.dr i
  ctrl := watches.ctrl

/-- The table and the registers of every processor. -/
structure DebugState (κ : Type*) where
  table : WpTable
  regs : κ → DebugRegisters

namespace DebugState

variable {κ : Type*} (s : DebugState κ)

/-- `set_dr`. -/
def setDr : DebugState κ :=
  { s with regs := fun cpu => wpSetToRegister (Drddr.setDr s.table) (s.regs cpu) }

/-- `wp_add`. -/
def wpAdd (req : WpRequest) : DebugState κ :=
  match s.table.freeSlot with
  | some slot => setDr { s with table := s.table.install slot req }
  | none => s

/-- `wp_remove`. -/
def wpRemove (id : WatchpointId) : DebugState κ :=
  if id.num = 0 ∨ id.num.signExtend 32 = s.table.wpNum id.dr then
    setDr { s with table := s.table.release id.dr }
  else s

/-- `wp_init`. -/
def wpInit : DebugState κ := setDr { s with table := s.table.wpInit }

/-- `wp_clean`. -/
def wpClean : DebugState κ := setDr { s with table := s.table.wpClean }

end DebugState

variable {κ : Type*}

/-- One whole call, registers included. -/
def registerStep (s : DebugState κ) : WpCall → Option (DebugState κ)
  | .add req => some (s.wpAdd req)
  | .remove id => some (s.wpRemove id)
  | .clean => some s.wpClean

/-- The table changes as it does without registers. -/
theorem registerStep_table (s : DebugState κ) (call : WpCall) :
    (registerStep s call).map (·.table) = wpCallStep s.table call := by
  cases call with
  | add req =>
    simp only [registerStep, wpCallStep, DebugState.wpAdd, wpAdd]
    cases s.table.freeSlot with
    | none => rfl
    | some slot => rfl
  | remove id =>
    simp only [registerStep, wpCallStep, DebugState.wpRemove, WpTable.wpRemove]
    split
    · rfl
    · rfl
  | clean => rfl

/-! ## The addresses -/

/-- On every processor the register of a slot in use holds the address of the slot. -/
def DebugState.Follows (s : DebugState κ) : Prop :=
  ∀ cpu i, s.table.wpUsage i = true → (s.regs cpu).dr i = s.table.wpAddr i

/-- A watch of address zero takes a slot whose register is zero on every processor. -/
def KeepsZero (s : DebugState κ) : WpCall → Prop
  | .add req => req.dataAddr = 0 →
      ∀ slot, s.table.freeSlot = some slot → ∀ cpu, (s.regs cpu).dr slot = 0
  | _ => True

/-- The register of a slot in use takes its address, unless that is zero. -/
theorem setDr_dr (s : DebugState κ) (cpu : κ) {i : Fin 4} (used : s.table.wpUsage i = true) :
    (s.setDr.regs cpu).dr i = if s.table.wpAddr i ≠ 0 then s.table.wpAddr i
      else (s.regs cpu).dr i := by
  simp only [DebugState.setDr, wpSetToRegister, setDr, used, if_true]

/-- After `set_dr` the registers agree unless a zero address was skipped. -/
theorem setDr_follows (s : DebugState κ) : s.setDr.Follows ↔
    ∀ cpu i, s.table.wpUsage i = true → s.table.wpAddr i = 0 → (s.regs cpu).dr i = 0 := by
  refine forall_congr' fun cpu => forall_congr' fun i => forall_congr' fun used => ?_
  rw [setDr_dr s cpu used]
  change (if s.table.wpAddr i ≠ 0 then s.table.wpAddr i else (s.regs cpu).dr i) =
    s.table.wpAddr i ↔ _
  by_cases zero : s.table.wpAddr i = 0
  · rw [if_neg (not_not.mpr zero), zero]
    exact ⟨fun held _ => held, fun held => held rfl⟩
  · rw [if_pos zero]
    exact ⟨fun _ skipped => absurd skipped zero, fun _ => rfl⟩

/-- A call keeps the registers in agreement exactly when it is no watch of address zero in a
slot whose register is not zero. -/
theorem follows_step (s : DebugState κ) (call : WpCall) (t : DebugState κ) (follows : s.Follows)
    (stepped : registerStep s call = some t) : t.Follows ↔ KeepsZero s call := by
  cases call with
  | add req =>
    cases Option.some.inj stepped
    cases free : s.table.freeSlot with
    | none => simp [DebugState.wpAdd, KeepsZero, free, follows]
    | some slot =>
      have filled :
          s.wpAdd req = DebugState.setDr { s with table := s.table.install slot req } := by
        simp only [DebugState.wpAdd, free]
      rw [filled, setDr_follows]
      constructor
      · intro after zero slot' found cpu
        obtain rfl : slot = slot' := Option.some.inj (free.symm.trans found)
        exact after cpu slot (Function.update_self ..) ((Function.update_self ..).trans zero)
      · intro keeps cpu i used zero
        by_cases same : i = slot
        · subst same
          have asked : req.dataAddr = 0 := by
            simpa only [WpTable.install, Function.update_self] using zero
          exact keeps asked i free cpu
        · simp only [WpTable.install, Function.update_of_ne same] at used zero
          exact (follows cpu i used).trans zero
  | remove id =>
    cases Option.some.inj stepped
    refine iff_of_true ?_ trivial
    unfold DebugState.wpRemove
    split
    · rw [setDr_follows]
      intro cpu i used zero
      by_cases same : i = id.dr
      · subst same
        simp [WpTable.release] at used
      · simp only [WpTable.release, Function.update_of_ne same] at used
        exact (follows cpu i used).trans zero
    · exact follows
  | clean =>
    cases Option.some.inj stepped
    refine iff_of_true ((setDr_follows _).mpr fun cpu i used => ?_) trivial
    simp [WpTable.wpClean] at used

/-- From any registers, after every call of a sequence of calls every slot in use has its address
in its register on every processor, exactly when every watch of address zero takes a slot whose
register is zero on every processor. -/
theorem registers_follow_iff (s : DebugState κ) (calls : List WpCall) :
    (∀ past, past <+: calls → ∀ t, run registerStep s.wpInit past = some t → t.Follows) ↔
      Admits registerStep KeepsZero s.wpInit calls := by
  have total (t : DebugState κ) (call : WpCall) : ∃ u, registerStep t call = some u := by
    cases call with
    | add | remove | clean => exact ⟨_, rfl⟩
  have start : s.wpInit.Follows := by
    refine (setDr_follows _).mpr fun cpu i used => ?_
    simp [WpTable.wpInit] at used
  exact throughout_iff_admits total (fun _ _ _ => follows_step _ _ _) start calls

/-- A watch, its removal and a watch of address zero in the same slot. -/
def reuseAtZero : List WpCall :=
  [.add (plainRequest 0x1000 32 true), .remove ⟨0, 0⟩, .add (plainRequest 0 32 true)]

/-- The register of the slot keeps the address of the earlier watch. -/
theorem registers_stale : ∃ t,
    run registerStep (DebugState.wpInit ⟨.loaded, fun _ : Unit => ⟨fun _ => 0, 0⟩⟩) reuseAtZero
      = some t ∧
      t.table.wpUsage 0 = true ∧ t.table.wpAddr 0 = 0 ∧ (t.regs ()).dr 0 = 0x1000 ∧ ¬t.Follows := by
  refine ⟨_, rfl, rfl, rfl, rfl, fun follows => ?_⟩
  have held := follows () 0 rfl
  exact absurd held (by decide)

/-! ## The watched bytes -/

/-- The binary logarithm of the length in bytes that a length code stands for. -/
def lenLog (code : BitVec 2) : Nat := ![0, 1, 3, 2] code.toFin

/-- The length codes of the processor are those of the lengths. -/
theorem lenCode_lenLog : ∀ code : BitVec 2, lenCode (2 ^ lenLog code) = some code := by
  decide

/-- A length code stands for at most eight bytes. -/
theorem lenLog_le : ∀ code : BitVec 2, lenLog code ≤ 3 := by
  decide

/-- The bytes that a register watches: as many as its length code says, from its address with the
low bits cleared. -/
def DebugRegisters.Watches (r : DebugRegisters) (i : Fin 4) (a : Word) : Prop :=
  ∃ k < 2 ^ lenLog (lenField i r.ctrl),
    a = blockStart (lenLog (lenField i r.ctrl)) (r.dr i) + BitVec.ofNat 64 k

instance (r : DebugRegisters) (i : Fin 4) (a : Word) : Decidable (r.Watches i a) :=
  inferInstanceAs (Decidable (∃ k < _, _))

/-- A new watch has the length code of its length. -/
theorem lenLog_wpAdd (s : DebugState κ) (cpu : κ) {slot : Fin 4} {req : WpRequest} {length : Nat}
    (free : s.table.freeSlot = some slot) (size : length ∈ [1, 2, 4, 8])
    (bits : req.dataLength = 8 * length) :
    2 ^ lenLog (lenField slot ((s.wpAdd req).regs cpu).ctrl) = length := by
  have used : (s.table.install slot req).wpUsage slot = true := Function.update_self ..
  have stored : (s.table.install slot req).wpLength slot = req.dataLength := Function.update_self ..
  have programmed : ((s.wpAdd req).regs cpu).ctrl = (setDr (s.table.install slot req)).ctrl := by
    simp only [DebugState.wpAdd, free]
    rfl
  have code : lenField slot ((s.wpAdd req).regs cpu).ctrl =
      (wpLenToFlag (8 * length : Int)).setWidth 2 := by
    rw [programmed, (WpTable.setDr_field slot).2.2, (WpTable.ctrlOf_used used).2.2, stored, bits]
  rw [code]
  simp only [List.mem_cons, List.not_mem_nil, or_false] at size
  rcases size with rfl | rfl | rfl | rfl
  · rfl
  · rfl
  · rfl
  · rfl

/-- A watch of an access covers its bytes exactly when the address is a multiple of the length
and, if it is zero, the register of the slot held an address below the length. -/
theorem watch_covers_iff (s : DebugState κ) (cpu : κ) {slot : Fin 4} {req : WpRequest}
    {length : Nat} (free : s.table.freeSlot = some slot) (size : length ∈ [1, 2, 4, 8])
    (bits : req.dataLength = 8 * length) :
    (∀ k < length,
      ((s.wpAdd req).regs cpu).Watches slot (req.dataAddr + BitVec.ofNat 64 k)) ↔
      length ∣ req.dataAddr.toNat ∧
        (req.dataAddr = 0 → ((s.regs cpu).dr slot).toNat < length) := by
  have log := lenLog_wpAdd s cpu free size bits
  have small : lenLog (lenField slot ((s.wpAdd req).regs cpu).ctrl) < 64 :=
    Nat.lt_of_le_of_lt (lenLog_le _) (by decide)
  have used : (s.table.install slot req).wpUsage slot = true := Function.update_self ..
  have stored : (s.table.install slot req).wpAddr slot = req.dataAddr := Function.update_self ..
  have register : ((s.wpAdd req).regs cpu).dr slot =
      if req.dataAddr ≠ 0 then req.dataAddr else (s.regs cpu).dr slot := by
    simp only [DebugState.wpAdd, free]
    rw [setDr_dr _ cpu used, stored]
  have covers := range_in_block small (a := req.dataAddr) (d := ((s.wpAdd req).regs cpu).dr slot)
  simp only [DebugRegisters.Watches, mem_block small]
  rw [log] at covers ⊢
  rw [covers, register]
  refine and_congr_right fun _ => ?_
  by_cases zero : req.dataAddr = 0
  · have positive : 0 < length := log ▸ Nat.two_pow_pos _
    have start : (0 : Word).toNat / length = 0 := Nat.zero_div length
    rw [if_neg (not_not.mpr zero), zero, start, eq_comm, Nat.div_eq_zero_iff_lt positive]
    exact ⟨fun below _ => below, fun below => below rfl⟩
  · rw [if_pos zero]
    exact ⟨fun _ isZero => absurd isZero zero, fun _ => rfl⟩

/-- Four bytes at an address that is not a multiple of four. -/
theorem watch_misses : ∃ s : DebugState Unit,
    s = (DebugState.wpInit ⟨.loaded, fun _ => ⟨fun _ => 0, 0⟩⟩).wpAdd
      (plainRequest 0x1002 32 true) ∧
      s.table.wpUsage 0 = true ∧ (s.regs ()).Watches 0 0x1003 ∧ ¬(s.regs ()).Watches 0 0x1004 := by
  refine ⟨_, rfl, rfl, ?_, ?_⟩
  · decide
  · decide

/-- Four bytes at a multiple of four, in a slot that has watched something else. -/
theorem watch_covers_aligned : ∃ s : DebugState Unit,
    s = (DebugState.wpInit ⟨.loaded, fun _ => ⟨fun _ => 0x2000, 0⟩⟩) ∧
      ∀ k < 4, ((s.wpAdd (plainRequest 0x1004 32 true)).regs ()).Watches 0
        (0x1004 + BitVec.ofNat 64 k) := by
  refine ⟨_, rfl, ?_⟩
  have size : 4 ∈ [1, 2, 4, 8] := by decide
  exact (watch_covers_iff _ () rfl size rfl).mpr (by decide)

end Drddr
