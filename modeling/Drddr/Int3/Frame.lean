import Drddr.Disasm.Displacement
import Drddr.Disasm.Stack
import Drddr.Int3.Handler

/-!
# The diverted trap

`int3_drddr` as one call, with the frame it builds on the interrupted stack, and the way from
that frame to the decoder: the return from the trap, the prologue of `int3_actual_work` and the
call of `int3_real_work`.
-/

namespace Drddr

open Machine

/-- How `int3_drddr` leaves. -/
inductive Int3Outcome where
  /-- By a call of `old_do_int3`. -/
  | passed
  /-- With the instruction pointer rewound. -/
  | resumed
  /-- To `int3_actual_work`. -/
  | diverted
  deriving DecidableEq, Repr

/-- The frame of a diverted trap: the memory, and the registers that the trap returns with. -/
def buildFrame (int3ActualWork : Word) (m : Memory) (regs : PtRegs) : Memory × PtRegs :=
  let regs := { regs with sp := regs.sp - PtRegs.size }
  let m := regs.store m regs.sp
  let regs := { regs with sp := regs.sp - 8 }
  let m := m.write regs.sp 8 regs.ip
  (m, { regs with ip := int3ActualWork })

/-- `int3_drddr` with nobody else running. -/
def int3Drddr (int3ActualWork : Word) (s : Bp) (regs : PtRegs) : Int3Outcome × Bp × PtRegs :=
  if s.bpCheck (regs.ip - 1) then
    let regs := { regs with ip := regs.ip - 1 }
    match s.bpRemove regs.ip with
    | (true, s) =>
      match s.bpIncTrapped with
      | (true, s) =>
        let (text, regs) := buildFrame int3ActualWork s.text regs
        (.diverted, { s with text }, regs)
      | (false, s) => (.resumed, s, regs)
    | (false, s) => (.resumed, s, regs)
  else (.passed, s, regs)

/-- From the return of the trap into `int3_real_work`: `push %rbp; mov %rsp,%rbp` of the
compiler, `leaq 0x10(%rbp),%rdi`, and the call. The memory, and the argument. -/
def enterRealWork (returnAddress : Word) (m : Memory) (regs : PtRegs) : Memory × Word :=
  let rsp := regs.sp - 8
  let m := m.write rsp 8 regs.bp
  let rbp := rsp
  let rdi := rbp + 0x10
  let rsp := rsp - 8
  (m.write rsp 8 returnAddress, rdi)

/-- The arguments that `int3_real_work` gives to `wp_add`, if it calls it; the arrays are not
initialized, so `out` is arbitrary. -/
def realWorkRequest (m : Memory) (regs : Word) (out : Access) (cpuid : Int) (trace : List Word) :
    Option (Option WpRequest) :=
  (getDataInfo m (PtRegs.load m regs) out).map fun acc =>
    if 0 < (acc.dataLength 0).toInt then
      some
        { dataAddr := acc.dataAddr 0
          dataLength := (acc.dataLength 0).toInt
          isWrite := acc.isWrite 0
          regs := PtRegs.load m regs
          cpuid
          trace }
    else none

/-! ## The stored registers -/

/-- A diverted trap passed the three operations on the breakpoints, and then built a frame
with the instruction pointer rewound. -/
theorem int3Drddr_diverted {work : Word} {s s' : Bp} {regs regs' : PtRegs}
    (diverted : int3Drddr work s regs = (.diverted, s', regs')) :
    ∃ s₁ s₂ : Bp, s.bpCheck (regs.ip - 1) = true ∧ s.bpRemove (regs.ip - 1) = (true, s₁) ∧
      s₁.bpIncTrapped = (true, s₂) ∧
      s' = { s₂ with text := (buildFrame work s₂.text { regs with ip := regs.ip - 1 }).1 } ∧
      regs' = (buildFrame work s₂.text { regs with ip := regs.ip - 1 }).2 := by
  unfold int3Drddr at diverted
  split at diverted
  · rename_i checked
    cases removed : s.bpRemove (regs.ip - 1) with
    | mk found s₁ =>
      cases found with
      | false => simp only [removed, Prod.mk.injEq, reduceCtorEq, false_and] at diverted
      | true =>
        cases counted : s₁.bpIncTrapped with
        | mk entered s₂ =>
          cases entered with
          | false =>
            simp only [removed, counted, Prod.mk.injEq, reduceCtorEq, false_and] at diverted
          | true =>
            simp only [removed, counted, Prod.mk.injEq, true_and] at diverted
            exact ⟨s₁, s₂, checked, rfl, counted, diverted.1.symm, diverted.2.symm⟩
  · cases diverted

/-- The one call is three steps of a handler with nobody else running, and the frame. -/
theorem int3Drddr_handler {work : Word} {s s' : Bp} {regs regs' : PtRegs} (wp : WpTable)
    (diverted : int3Drddr work s regs = (.diverted, s', regs')) :
    ∃ s₁ s₂ : Bp,
      handlerStep ⟨s, wp⟩ (.trapped regs.ip) .tick = some (⟨s, wp⟩, .claimed (regs.ip - 1)) ∧
      handlerStep ⟨s, wp⟩ (.claimed (regs.ip - 1)) .tick
        = some (⟨s₁, wp⟩, .removed (regs.ip - 1)) ∧
      handlerStep ⟨s₁, wp⟩ (.removed (regs.ip - 1)) .tick
        = some (⟨s₂, wp⟩, .diverted (regs.ip - 1)) ∧
      s' = { s₂ with text := s'.text } := by
  obtain ⟨s₁, s₂, checked, removed, counted, after, -⟩ := int3Drddr_diverted diverted
  refine ⟨s₁, s₂, ?_, ?_, ?_, ?_⟩
  · simp only [handlerStep, checked, if_true]
  · simp only [handlerStep, removed]
  · simp only [handlerStep, counted]
  · rw [after]

/-- The structure that `int3_real_work` decodes is the trapped one with the instruction pointer
rewound and the stack pointer already lowered by its own size. -/
theorem load_enterRealWork (work back : Word) (m : Memory) (regs : PtRegs) :
    let frame := buildFrame work m regs
    let entry := enterRealWork back frame.1 frame.2
    PtRegs.load entry.1 entry.2 = { regs with sp := regs.sp - PtRegs.size } := by
  let a := regs.sp - PtRegs.size
  have argument : a - 8 - 8 + 0x10 = a := by
    have sum : (8#64) + 8#64 = 0x10#64 := rfl
    rw [BitVec.sub_sub]
    exact BitVec.sub_add_cancel a 0x10#64
  have second : a - 8 - 8 = a - BitVec.ofNat 64 16 := BitVec.sub_sub a 8 8
  have third : a - 8 - 8 - 8 = a - BitVec.ofNat 64 24 := by
    rw [second]
    exact BitVec.sub_sub a 16 8
  have first : a - 8 = a - BitVec.ofNat 64 8 := rfl
  simp only [buildFrame, enterRealWork]
  change PtRegs.load ((((PtRegs.store m a { regs with sp := a }).write (a - 8) 8 regs.ip).write
    (a - 8 - 8) 8 regs.bp).write (a - 8 - 8 - 8) 8 back) (a - 8 - 8 + 0x10) = _
  rw [argument, third, second, first, PtRegs.load_write_below _ _ _ (by decide) (by decide),
    PtRegs.load_write_below _ _ _ (by decide) (by decide),
    PtRegs.load_write_below _ _ _ (by decide) (by decide), PtRegs.load_store]

/-- The structure that `int3_real_work` decodes is never the trapped one with the instruction
pointer rewound: its stack pointer is 168 too low. -/
theorem decoded_regs_lowered (work back : Word) (s s' : Bp) (regs regs' : PtRegs)
    (diverted : int3Drddr work s regs = (.diverted, s', regs')) :
    let entry := enterRealWork back s'.text regs'
    PtRegs.load entry.1 entry.2 = { regs with ip := regs.ip - 1, sp := regs.sp - 168 } ∧
      PtRegs.load entry.1 entry.2 ≠ { regs with ip := regs.ip - 1 } := by
  obtain ⟨s₁, s₂, -, -, -, after, returned⟩ := int3Drddr_diverted diverted
  have loaded := load_enterRealWork work back s₂.text { regs with ip := regs.ip - 1 }
  rw [after, returned]
  refine ⟨loaded, ?_⟩
  rw [loaded]
  intro same
  have lowered : regs.sp - PtRegs.size = regs.sp := congrArg PtRegs.sp same
  have size : PtRegs.size = 0 := by
    have sum := congrArg (fun x => regs.sp - x) lowered
    simpa using sum
  exact absurd size (by decide)

/-- What a lowered stack pointer takes from the base. -/
theorem baseValue_lowered (f : AddressForm) (regs : PtRegs) (size : Word) :
    f.baseValue { regs with sp := regs.sp - size }
      = f.baseValue regs - if f.base = some 4 then size else 0 := by
  unfold AddressForm.baseValue
  cases f.base with
  | none => simp
  | some r =>
    by_cases four : r = 4
    · simp [PtRegs.gpr, four]
    · simp [PtRegs.gpr_with_sp, four]

/-- The index of an address is not read from the stack pointer, so it is the same in the frame. -/
theorem indexValue_lowered (f : AddressForm) (regs : PtRegs) (sp : Word)
    (notIndex : ∀ scale, f.index ≠ some (4, scale)) :
    f.indexValue { regs with sp } = f.indexValue regs := by
  unfold AddressForm.indexValue
  cases named : f.index with
  | none => rfl
  | some pair =>
    have other : pair.1 ≠ 4 := by
      intro four
      exact notIndex pair.2 (by rw [named, ← four])
    simp only [PtRegs.gpr_with_sp, other, if_false]

/-- An address lowered by the size of the structure is another address. -/
theorem truncateAddress_sub_size_ne (addr32 : Bool) (a : Word) :
    truncateAddress addr32 (a - PtRegs.size) ≠ truncateAddress addr32 a := by
  intro same
  have shifted : truncateAddress addr32 (a + -PtRegs.size) = truncateAddress addr32 (a + 0) := by
    rw [← BitVec.sub_eq_add_neg, same]
    exact congrArg _ (BitVec.add_zero a).symm
  rw [truncateAddress_add_left] at shifted
  revert shifted
  cases addr32 <;> decide

/-- Of the ModRM operands, exactly those addressed through the stack pointer are reported at
another address than the trapped registers give. -/
theorem modrm_address_lowered_iff (m : Memory) (regs : PtRegs) (out : Access) (e : Encoding)
    (accesses : e.AccessesModRM m regs.ip) :
    ∃ acc trapped,
      yyGetMemoryAccess m { regs with sp := regs.sp - PtRegs.size } out = some acc ∧
      yyGetMemoryAccess m regs out = some trapped ∧
      (acc.dataAddr 0 = trapped.dataAddr 0 ↔ (e.addressForm m regs.ip).base ≠ some 4) := by
  obtain ⟨trapped, decoded, address⟩ := yyGetMemoryAccess_modRM out accesses
  obtain ⟨acc, decoded', address'⟩ :=
    @yyGetMemoryAccess_modRM m { regs with sp := regs.sp - PtRegs.size } e out accesses
  refine ⟨acc, trapped, decoded', decoded, ?_⟩
  have notIndex := AddressForm.index_ne_sp m e.rex (e.tail regs.ip)
  have index := indexValue_lowered (e.addressForm m regs.ip) regs (regs.sp - PtRegs.size) notIndex
  have base := baseValue_lowered (e.addressForm m regs.ip) regs PtRegs.size
  have lowered : (e.addressForm m regs.ip).registers { regs with sp := regs.sp - PtRegs.size }
      = (e.addressForm m regs.ip).registers regs
        - if (e.addressForm m regs.ip).base = some 4 then PtRegs.size else 0 := by
    rw [AddressForm.registers, AddressForm.registers, base, index]
    abel
  rw [address, address']
  change truncateAddress e.addr32 ((e.addressForm m regs.ip).registers _ + _) = _ ↔ _
  rw [lowered]
  by_cases stack : (e.addressForm m regs.ip).base = some 4
  · have moved (r d : Word) : r - PtRegs.size + d = r + d - PtRegs.size := by abel
    rw [if_pos stack, moved]
    exact ⟨fun same => absurd same (truncateAddress_sub_size_ne _ _),
      fun other => absurd stack other⟩
  · have kept (r : Word) : r - 0 = r := BitVec.sub_zero r
    rw [if_neg stack, kept]
    exact ⟨fun _ => stack, fun _ => rfl⟩

/-- A push or pop is always reported below the slot that the trapped registers give. -/
theorem stack_address_lowered (m : Memory) (regs : PtRegs) (out : Access) (e : Encoding)
    {write : Bool} (held : e.HeldAt m regs.ip) (isOpcode : e.IsOpcode)
    (reports : (e.entry (m (e.tail regs.ip))).ReportsStack write) :
    ∃ acc trapped,
      yyGetMemoryAccess m { regs with sp := regs.sp - PtRegs.size } out = some acc ∧
      yyGetMemoryAccess m regs out = some trapped ∧
      acc.dataAddr 0 = trapped.dataAddr 0 - PtRegs.size := by
  obtain ⟨trapped, decoded, slot, -, -⟩ := yyGetMemoryAccess_stack out held isOpcode reports
  obtain ⟨acc, decoded', slot', -, -⟩ := @yyGetMemoryAccess_stack m
    { regs with sp := regs.sp - PtRegs.size } e write out held isOpcode reports
  refine ⟨acc, trapped, decoded', decoded, ?_⟩
  rw [slot, slot']
  exact sub_right_comm _ _ _

/-- A one-byte stack instruction under an armed breakpoint. -/
def pushTrap : Bp := ((Bp.loaded (noops.set 0x1000 0x53)).bpInit (fun _ => 0x1000) 1).arm 0

/-- Registers when `push %rbx` traps. -/
def pushTrapRegs : PtRegs := { (default : PtRegs) with ip := 0x1001, sp := 0x8000 }

/-- Arrays of zeros. -/
def noAccess : Access := ⟨0, 0, fun _ => false⟩

/-- The stack slot that `push %rbx` writes is watched 168 bytes too low. -/
theorem decoded_push_lowered :
    let after := int3Drddr 0x5000 pushTrap pushTrapRegs
    let entry := enterRealWork 0x5010 after.2.1.text after.2.2
    after.1 = .diverted ∧
      (realWorkRequest entry.1 entry.2 noAccess 0 []).map (·.map (·.dataAddr))
        = some (some (0x8000 - 168 - 8)) ∧
      (yyGetMemoryAccess entry.1 { pushTrapRegs with ip := 0x1000 } noAccess).map (·.dataAddr 0)
        = some (0x8000 - 8) := by
  refine ⟨by decide, by decide, by decide⟩

/-- The registers that are decoded for the push have the stack pointer of the frame. -/
theorem decoded_regs_lowered_push :
    let after := int3Drddr 0x5000 pushTrap pushTrapRegs
    let entry := enterRealWork 0x5010 after.2.1.text after.2.2
    PtRegs.load entry.1 entry.2
        = { pushTrapRegs with ip := pushTrapRegs.ip - 1, sp := pushTrapRegs.sp - 168 } ∧
      PtRegs.load entry.1 entry.2 ≠ { pushTrapRegs with ip := pushTrapRegs.ip - 1 } :=
  decoded_regs_lowered 0x5000 0x5010 pushTrap _ pushTrapRegs _
    (Prod.ext (by decide) rfl)

end Drddr
