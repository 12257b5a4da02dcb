import Drddr.Machine.Race
import Drddr.Wp.Registers

/-!
# What a watchpoint detects

`wp_add` is called with the access of a displaced instruction, and while its slot is in use every
processor is to trap when it makes an access that races with that one. Other watchpoints come and
go meanwhile, and each of these calls programs all registers anew.
-/

namespace Drddr

open Machine

/-- The processor traps for a slot when it makes an access: it has taken the control word, the slot
is enabled, and the access touches a byte that the register watches in a way that it watches. -/
def DebugRegisters.Traps (r : DebugRegisters) (i : Fin 4) (x : MemAccess Word) : Prop :=
  reservedField r.ctrl = 0 ∧ enableField i r.ctrl = 1 ∧
    (rwField i r.ctrl = 1 ∨ rwField i r.ctrl = 3) ∧
    Trips { a | r.Watches i a } (rwField i r.ctrl = 3) x

/-- The length of a request in bytes. -/
def WpRequest.byteLength (req : WpRequest) : Nat := (req.dataLength / 8).toNat

/-- The access that a request is for. -/
def WpRequest.access (req : WpRequest) : MemAccess Word where
  bytes := { a | ∃ k < req.byteLength, a = req.dataAddr + BitVec.ofNat 64 k }
  write := req.isWrite

/-- A call after which the processors accept the control word: no other length than that of an
access, and no long one in the last slot. -/
def DebugState.Takes {κ : Type*} (s : DebugState κ) (call : WpCall) : Prop :=
  LegalRequest call ∧ NarrowLast s.table call

/-- A call frees a slot. -/
def WpTable.Frees (t : WpTable) (slot : Fin 4) : WpCall → Prop
  | .add _ => False
  | .remove id => id.dr = slot ∧ (id.num = 0 ∨ id.num.signExtend 32 = t.wpNum id.dr)
  | .clean => True

instance (t : WpTable) (slot : Fin 4) : DecidablePred (t.Frees slot)
  | .add _ => isFalse id
  | .remove _ => inferInstanceAs (Decidable (_ ∧ _))
  | .clean => isTrue trivial

instance (t : WpTable) : DecidablePred (NarrowLast t)
  | .add _ => inferInstanceAs (Decidable (_ → _))
  | .remove _ => isTrue trivial
  | .clean => isTrue trivial

instance {κ : Type*} (s : DebugState κ) (call : WpCall) : Decidable (s.Takes call) :=
  inferInstanceAs (Decidable (_ ∧ _))

variable {κ : Type*}

/-! ## The control word -/

/-- Every processor has the control word of the table. -/
def DebugState.Programmed (s : DebugState κ) : Prop :=
  ∀ cpu, (s.regs cpu).ctrl = (Drddr.setDr s.table).ctrl

/-- Every call leaves the registers programmed for the slots in use. -/
theorem DebugState.Programmed.step {s t : DebugState κ} {call : WpCall} (inv : s.Programmed)
    (stepped : registerStep s call = some t) : t.Programmed := by
  cases call with
  | add req =>
    cases Option.some.inj stepped
    unfold DebugState.wpAdd
    cases s.table.freeSlot with
    | none => exact inv
    | some slot => exact fun cpu => rfl
  | remove id =>
    cases Option.some.inj stepped
    unfold DebugState.wpRemove
    split
    · exact fun cpu => rfl
    · exact inv
  | clean =>
    cases Option.some.inj stepped
    exact fun cpu => rfl

/-- The lengths in the table are legal and the last slot is narrow. -/
structure DebugState.Accepted (s : DebugState κ) : Prop where
  programmed : s.Programmed
  lengths : LegalLengths s.table
  narrow : ¬WideLast s.table

/-- A call that the registers take leaves a state that accepts legal requests. -/
theorem DebugState.Accepted.step {s t : DebugState κ} {call : WpCall} (inv : s.Accepted)
    (takes : s.Takes call) (stepped : registerStep s call = some t) : t.Accepted := by
  have table : wpCallStep s.table call = some t.table := by
    rw [← registerStep_table, stepped]
    rfl
  exact ⟨inv.programmed.step stepped, WpTable.legalLengths_step inv.lengths takes.1 table,
    WpTable.narrow_step inv.narrow takes.2 table⟩

/-- `wp_init` leaves a state that accepts legal requests. -/
theorem DebugState.accepted_wpInit (s : DebugState κ) : s.wpInit.Accepted where
  programmed := fun _ => rfl
  lengths := fun _ used => absurd used Bool.false_ne_true
  narrow := fun wide => absurd wide.1 Bool.false_ne_true

/-! ## One slot -/

/-- A slot is in use for a request, and the registers hold these addresses. -/
structure DebugState.Holds (s : DebugState κ) (slot : Fin 4) (req : WpRequest) (dr : κ → Word) :
    Prop where
  used : s.table.wpUsage slot = true
  addr : s.table.wpAddr slot = req.dataAddr
  length : s.table.wpLength slot = req.dataLength
  iswrite : s.table.wpIswrite slot = req.isWrite
  register : ∀ cpu, (s.regs cpu).dr slot = dr cpu

/-- Programming the registers again leaves a slot to its request. -/
theorem DebugState.Holds.setDr {s : DebugState κ} {slot : Fin 4} {req : WpRequest} {dr : κ → Word}
    (inv : s.Holds slot req dr) (kept : req.dataAddr ≠ 0 → ∀ cpu, dr cpu = req.dataAddr) :
    s.setDr.Holds slot req dr := by
  refine ⟨inv.used, inv.addr, inv.length, inv.iswrite, fun cpu => ?_⟩
  rw [setDr_dr s cpu inv.used, inv.addr]
  by_cases zero : req.dataAddr = 0
  · rw [if_neg (not_not.mpr zero)]
    exact inv.register cpu
  · rw [if_pos zero, kept zero cpu]

/-- A call that does not free the slot leaves it to the request. -/
theorem DebugState.Holds.step {s t : DebugState κ} {slot : Fin 4} {req : WpRequest} {dr : κ → Word}
    {call : WpCall} (inv : s.Holds slot req dr)
    (kept : req.dataAddr ≠ 0 → ∀ cpu, dr cpu = req.dataAddr) (stays : ¬s.table.Frees slot call)
    (stepped : registerStep s call = some t) : t.Holds slot req dr := by
  cases call with
  | add other =>
    cases Option.some.inj stepped
    unfold DebugState.wpAdd
    cases free : s.table.freeSlot with
    | none => exact inv
    | some next =>
      have apart : slot ≠ next := by
        intro same
        have unused := (WpTable.freeSlot_eq_some.mp free).1
        rw [← same, inv.used] at unused
        exact Bool.noConfusion unused
      apply DebugState.Holds.setDr _ kept
      constructor
      · exact (Function.update_of_ne apart ..).trans inv.used
      · exact (Function.update_of_ne apart ..).trans inv.addr
      · exact (Function.update_of_ne apart ..).trans inv.length
      · exact (Function.update_of_ne apart ..).trans inv.iswrite
      · exact inv.register
  | remove id =>
    cases Option.some.inj stepped
    unfold DebugState.wpRemove
    split
    · rename_i frees
      have apart : slot ≠ id.dr := fun same => stays ⟨same.symm, frees⟩
      apply DebugState.Holds.setDr _ kept
      constructor
      · exact (Function.update_of_ne apart ..).trans inv.used
      · exact inv.addr
      · exact inv.length
      · exact inv.iswrite
      · exact inv.register
    · exact inv
  | clean => exact absurd trivial stays

/-- What the registers hold for a request that has just taken the slot. -/
def DebugState.registerFor (s : DebugState κ) (slot : Fin 4) (req : WpRequest) (cpu : κ) : Word :=
  if req.dataAddr ≠ 0 then req.dataAddr else (s.regs cpu).dr slot

/-- `wp_add` gives a free slot to its request. -/
theorem DebugState.holds_wpAdd {s : DebugState κ} {slot : Fin 4} (req : WpRequest)
    (free : s.table.freeSlot = some slot) :
    (s.wpAdd req).Holds slot req (s.registerFor slot req) := by
  unfold DebugState.wpAdd
  rw [free]
  have used : (s.table.install slot req).wpUsage slot = true := Function.update_self ..
  have stored : (s.table.install slot req).wpAddr slot = req.dataAddr := Function.update_self ..
  refine ⟨used, stored, Function.update_self .., Function.update_self .., fun cpu => ?_⟩
  show ((DebugState.setDr { s with table := s.table.install slot req }).regs cpu).dr slot = _
  rw [setDr_dr _ cpu used, stored]
  rfl

/-! ## Every run -/

/-- The length code of a legal length is that of its bytes. -/
theorem WpRequest.lenLog_byteLength {req : WpRequest} (legal : LegalLength req.dataLength) :
    2 ^ lenLog ((wpLenToFlag req.dataLength).setWidth 2) = req.byteLength := by
  unfold WpRequest.byteLength
  simp only [LegalLength, List.mem_cons, List.not_mem_nil, or_false] at legal
  rcases legal with bits | bits | bits | bits
  · rw [bits]
    rfl
  · rw [bits]
    rfl
  · rw [bits]
    rfl
  · rw [bits]
    rfl

/-- A processor with an accepted control word watches, for a slot in use, the block of its register
that has the length of the request, and reads when that is a write. -/
theorem DebugState.Holds.traps_iff {s : DebugState κ} {slot : Fin 4} {req : WpRequest}
    {dr : κ → Word} (inv : s.Holds slot req dr) (accepted : s.Accepted)
    (legal : LegalLength req.dataLength) (cpu : κ) :
    ∃ log, log < 64 ∧ 2 ^ log = req.byteLength ∧ ∀ x, (s.regs cpu).Traps slot x ↔
      Trips { a | a.toNat / 2 ^ log = (dr cpu).toNat / 2 ^ log } req.isWrite x := by
  obtain ⟨enabled, mode, code⟩ := WpTable.ctrlOf_used inv.used
  have fields := @WpTable.setDr_field s.table slot
  have reserved : reservedField (s.regs cpu).ctrl = 0 := by
    rw [accepted.programmed cpu]
    exact (WpTable.setDr_reserved_iff accepted.lengths).mpr accepted.narrow
  rw [← fields.1, ← accepted.programmed cpu] at enabled
  rw [← fields.2.1, ← accepted.programmed cpu, inv.iswrite] at mode
  rw [← fields.2.2, ← accepted.programmed cpu, inv.length] at code
  have log : 2 ^ lenLog (lenField slot (s.regs cpu).ctrl) = req.byteLength := by
    rw [code]
    exact WpRequest.lenLog_byteLength legal
  have small : lenLog (lenField slot (s.regs cpu).ctrl) < 64 :=
    Nat.lt_of_le_of_lt (lenLog_le _) (by decide)
  refine ⟨_, small, log, fun x => ?_⟩
  have watched : { a | (s.regs cpu).Watches slot a } =
      { a : Word | a.toNat / 2 ^ lenLog (lenField slot (s.regs cpu).ctrl) =
        (dr cpu).toNat / 2 ^ lenLog (lenField slot (s.regs cpu).ctrl) } := by
    ext a
    show (∃ k < _, _) ↔ _
    rw [mem_block small, inv.register cpu]
    rfl
  have reads : decide (rwField slot (s.regs cpu).ctrl = 3) = req.isWrite := by
    rw [mode]
    cases req.isWrite with
    | true => rfl
    | false => rfl
  have either : rwField slot (s.regs cpu).ctrl = 1 ∨ rwField slot (s.regs cpu).ctrl = 3 := by
    rw [mode]
    cases req.isWrite with
    | true => exact .inr rfl
    | false => exact .inl rfl
  unfold DebugRegisters.Traps
  rw [watched, reads]
  exact ⟨fun traps => traps.2.2.2, fun trips => ⟨reserved, enabled, either, trips⟩⟩

/-- From `wp_add` until its slot is freed, whatever else is added and removed meanwhile, a processor
watches for the slot a block that has the length of the request. -/
theorem DebugState.traps_added (s : DebugState κ) {past later : List WpCall} {req : WpRequest}
    {t u : DebugState κ} {slot : Fin 4}
    (taken : Admits registerStep DebugState.Takes s.wpInit (past ++ .add req :: later))
    (reached : run registerStep s.wpInit past = some t) (free : t.table.freeSlot = some slot)
    (kept : Admits registerStep (fun s call => ¬s.table.Frees slot call) (t.wpAdd req) later)
    (ran : run registerStep (t.wpAdd req) later = some u) (cpu : κ) :
    ∃ log, log < 64 ∧ 2 ^ log = req.byteLength ∧ ∀ x, (u.regs cpu).Traps slot x ↔
      Trips { a | a.toNat / 2 ^ log = (t.registerFor slot req cpu).toNat / 2 ^ log }
        req.isWrite x := by
  have accepted : t.Accepted :=
    run_admitted (fun _ _ _ inv takes stepped => inv.step takes stepped) s.accepted_wpInit
      taken.take reached
  have rest : Admits registerStep DebugState.Takes t (.add req :: later) := taken.drop reached
  have legal : LegalLength req.dataLength := rest.1.1
  have accepted' : u.Accepted :=
    run_admitted (fun _ _ _ inv takes stepped => inv.step takes stepped)
      (accepted.step rest.1 rfl) (rest.2 _ rfl) ran
  have same : req.dataAddr ≠ 0 → ∀ cpu, t.registerFor slot req cpu = req.dataAddr :=
    fun other _ => if_pos other
  have holds : u.Holds slot req (t.registerFor slot req) :=
    @run_admitted (DebugState κ) WpCall registerStep (fun s call => ¬s.table.Frees slot call)
      (fun s => s.Holds slot req (t.registerFor slot req))
      (fun _ _ _ inv stays stepped => inv.step same stays stepped) later _ u
      (DebugState.holds_wpAdd req free) kept ran
  exact holds.traps_iff accepted' legal cpu

/-- A processor traps for the slot at exactly the accesses that race with the one of the request, if
and only if the address is a multiple of the length and, if it is zero, the register of the slot
held an address below the length. -/
theorem traps_iff_conflicts (s : DebugState κ) {past later : List WpCall} {req : WpRequest}
    {t u : DebugState κ} {slot : Fin 4}
    (taken : Admits registerStep DebugState.Takes s.wpInit (past ++ .add req :: later))
    (reached : run registerStep s.wpInit past = some t) (free : t.table.freeSlot = some slot)
    (kept : Admits registerStep (fun s call => ¬s.table.Frees slot call) (t.wpAdd req) later)
    (ran : run registerStep (t.wpAdd req) later = some u) (cpu : κ) :
    (∀ x, (u.regs cpu).Traps slot x ↔ req.access.Conflicts x) ↔
      req.byteLength ∣ req.dataAddr.toNat ∧
        (req.dataAddr = 0 → ((t.regs cpu).dr slot).toNat < req.byteLength) := by
  obtain ⟨log, small, size, traps⟩ := s.traps_added taken reached free kept ran cpu
  have positive : 0 < req.byteLength := size ▸ Nat.two_pow_pos log
  have nonempty : req.access.bytes.Nonempty := ⟨_, 0, positive, rfl⟩
  have detects := @trips_iff_conflicts Word
    { a | a.toNat / 2 ^ log = (t.registerFor slot req cpu).toNat / 2 ^ log } req.isWrite
    req.access nonempty
  have block := block_eq_range small (a := req.dataAddr) (d := t.registerFor slot req cpu)
  rw [size] at detects block
  have mode : req.isWrite = req.access.write := rfl
  rw [forall_congr' fun x => iff_congr (traps x) Iff.rfl, size, detects, and_iff_left mode,
    Set.ext_iff]
  refine block.trans (and_congr_right fun _ => ?_)
  unfold DebugState.registerFor
  by_cases zero : req.dataAddr = 0
  · have start : (0 : Word).toNat / req.byteLength = 0 := Nat.zero_div _
    rw [if_neg (not_not.mpr zero), zero, start, eq_comm, Nat.div_eq_zero_iff_lt positive]
    exact ⟨fun below _ => below, fun below => below rfl⟩
  · rw [if_pos zero]
    exact ⟨fun _ isZero => absurd isZero zero, fun _ => rfl⟩

/-- The access of a read of four bytes. Another watchpoint is there before, and is removed while the
slot is in use; a third one takes its place. -/
theorem traps_iff_conflicts_read : ∃ u,
    run registerStep (DebugState.wpInit ⟨.loaded, fun _ : Unit => ⟨fun _ => 0, 0⟩⟩)
      [.add (plainRequest 0x1000 64 true), .add (plainRequest 0x2004 32 false),
        .remove ⟨0, 1⟩, .add (plainRequest 0x3002 16 true)] = some u ∧
      ∀ x, (u.regs ()).Traps 1 x ↔ (plainRequest 0x2004 32 false).access.Conflicts x := by
  refine ⟨_, rfl, ?_⟩
  refine (@traps_iff_conflicts Unit ⟨.loaded, fun _ : Unit => ⟨fun _ => 0, 0⟩⟩
    [.add (plainRequest 0x1000 64 true)] [.remove ⟨0, 1⟩, .add (plainRequest 0x3002 16 true)]
    (plainRequest 0x2004 32 false) _ _ 1 ?_ rfl rfl ?_ rfl ()).mpr ?_
  · decide
  · decide
  · decide

end Drddr
