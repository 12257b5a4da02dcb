import Drddr.Int3.Frame
import Drddr.Machine.Assembly

/-!
# The way back from a diverted trap

The assembly of `int3_actual_work`, from the return of the trap to its own `retq`. The frame of
`int3_drddr` is what it restores the registers from, and two words of it are what it returns
through.
-/

namespace Drddr

open Machine

/-- The general registers of a saved structure. -/
def PtRegs.reg (r : PtRegs) : Reg → Word
  | .rax => r.ax
  | .rcx => r.cx
  | .rdx => r.dx
  | .rbx => r.bx
  | .rsp => r.sp
  | .rbp => r.bp
  | .rsi => r.si
  | .rdi => r.di
  | .r8 => r.r8
  | .r9 => r.r9
  | .r10 => r.r10
  | .r11 => r.r11
  | .r12 => r.r12
  | .r13 => r.r13
  | .r14 => r.r14
  | .r15 => r.r15

/-- The prologue that the compiler gives to `int3_actual_work`. -/
def prologue : List Instr := [.push .rbp, .mov .rsp .rbp]

/-- `int3_actual_work` up to its call. -/
def callRealWork (back : Word) : List Instr := prologue ++ [.lea 0x10 .rbp .rdi, .call back]

/-- The instructions after the call: the registers that are read from the saved structure, and the
flags. -/
def restoreRegisters : List Instr :=
  [.load 0x38 .rbp .rbx, .load 0x40 .rbp .r11, .load 0x48 .rbp .r10, .load 0x50 .rbp .r9,
    .load 0x58 .rbp .r8, .load 0x68 .rbp .rcx, .load 0x70 .rbp .rdx, .load 0x78 .rbp .rsi,
    .load 0x80 .rbp .rdi, .lea 0xa0 .rbp .rsp, .popf]

/-- The last instructions: the base pointer and the instruction pointer are moved to the top of the
frame, and the return takes them from there. -/
def leaveFrame : List Instr :=
  [.load 0x0 .rbp .rax, .store .rax 0xa8 .rbp, .load 0x8 .rbp .rax, .store .rax 0xb0 .rbp,
    .load 0x60 .rbp .rax, .lea 0xa8 .rbp .rbp, .leave, .ret]

/-- `int3_actual_work`, with the address that its call returns to. -/
def int3ActualWork (back : Word) : List Instr := callRealWork back ++ restoreRegisters ++ leaveFrame

/-- The return from a trap. -/
def returnFromTrap (m : Memory) (regs : PtRegs) : Cpu :=
  { gpr := regs.reg, flags := regs.flags, rip := regs.ip, mem := m }

/-! ## Into the call -/

/-- The processor when `int3_real_work` is entered. -/
def atRealWork (back : Word) (m : Memory) (regs : PtRegs) : Cpu :=
  let entry := enterRealWork back m regs
  { gpr := fun r => match r with
      | .rsp => regs.sp - 8 - 8
      | .rbp => regs.sp - 8
      | .rdi => entry.2
      | r => regs.reg r
    flags := regs.flags
    rip := regs.ip
    mem := entry.1 }

/-- The instructions of `int3_actual_work` before its call lead to the call. -/
theorem execLine_callRealWork (callee : Cpu → Cpu) (back : Word) (m : Memory) (regs : PtRegs) :
    execLine callee (callRealWork back) (returnFromTrap m regs)
      = callee (atRealWork back m regs) := by
  have registers : (exec id (.call back) (exec id (.lea 0x10 .rbp .rdi) (exec id (.mov .rsp .rbp)
      (exec id (.push .rbp) (returnFromTrap m regs))))) = atRealWork back m regs := by
    simp only [exec, id, Cpu.pushed, Cpu.set, returnFromTrap, atRealWork, enterRealWork,
      Cpu.mk.injEq]
    refine ⟨?_, trivial, trivial, ?_⟩
    · funext r
      cases r <;> simp [Function.update, PtRegs.reg]
    · simp [Function.update, PtRegs.reg]
  rw [← registers]
  rfl

/-! ## Back from the call -/

/-- A frame on the stack, named by the base pointer: two words, and above them a saved
structure. -/
structure FrameAt (m : Memory) (b bp ip : Word) (saved : PtRegs) : Prop where
  bottom : m.read b 8 = bp
  second : m.read (b + 8) 8 = ip
  above : PtRegs.load m (b + 0x10) = saved

/-- The last register that is restored, named by the base pointer. -/
theorem FrameAt.ax {m : Memory} {b bp ip : Word} {saved : PtRegs}
    (frame : FrameAt m b bp ip saved) : m.read (b + BitVec.ofNat 64 0x60) 8 = saved.ax := by
  have place : b + BitVec.ofNat 64 0x60 = b + 0x10 + BitVec.ofNat 64 (8 * 10) := by
    rw [BitVec.add_assoc]
    rfl
  rw [← frame.above, place]
  rfl

/-- The registers and the flags are read from the structure. -/
theorem execLine_restoreRegisters (callee : Cpu → Cpu) {c : Cpu} {b bp ip : Word}
    {saved : PtRegs} (base : c.gpr .rbp = b) (frame : FrameAt c.mem b bp ip saved) :
    execLine callee restoreRegisters c =
      { gpr := fun r => match r with
          | .rsp => b + 0xa8
          | .rbp => b
          | .rax | .r12 | .r13 | .r14 | .r15 => c.gpr r
          | r => saved.reg r
        flags := saved.flags
        rip := c.rip
        mem := c.mem } := by
  have word (k : Nat) : c.mem.read (b + BitVec.ofNat 64 (0x10 + 8 * k)) 8
      = PtRegs.wordAt c.mem (b + 0x10) k := by
    rw [PtRegs.wordAt, add_ofNat_add]
    rfl
  have loaded := frame.above
  subst loaded base
  simp only [execLine, restoreRegisters, List.foldl, exec, Cpu.dropped, Cpu.top, Cpu.set,
    Cpu.mk.injEq]
  refine ⟨?_, ?_, trivial, trivial⟩
  · funext r
    cases r <;> simp [Function.update, PtRegs.reg, PtRegs.load]
    case rcx => exact word 11
    case rdx => exact word 12
    case rbx => exact word 5
    case rsp => exact BitVec.add_assoc (c.gpr .rbp) 160#64 8#64
    case rsi => exact word 13
    case rdi => exact word 14
    case r8 => exact word 9
    case r9 => exact word 8
    case r10 => exact word 7
    case r11 => exact word 6
  · simp [Function.update, PtRegs.load]
    exact word 18

/-- The words that the return takes are copied over the top of the structure before the stack
pointer passes them. -/
theorem execLine_leaveFrame (callee : Cpu → Cpu) {c : Cpu} {b bp ip : Word} {saved : PtRegs}
    (base : c.gpr .rbp = b) (frame : FrameAt c.mem b bp ip saved) :
    execLine callee leaveFrame c =
      { gpr := fun r => match r with
          | .rsp => b + 0xb8
          | .rbp => bp
          | .rax => saved.ax
          | r => c.gpr r
        flags := c.flags
        rip := ip
        mem := (c.mem.write (b + 0xa8) 8 bp).write (b + 0xb0) 8 ip } := by
  have ax := frame.ax
  obtain ⟨bottom, second, above⟩ := frame
  have apart (m : Memory) (v : Word) {i j : Nat} (far : j + 8 ≤ i) (fits : i + 8 ≤ 2 ^ 64) :
      (m.write (b + BitVec.ofNat 64 i) 8 v).read (b + BitVec.ofNat 64 j) 8
        = m.read (b + BitVec.ofNat 64 j) 8 :=
    m.read_write_apart b v (.inr far) ⟨fits, by omega⟩
  let copied := (c.mem.write (b + 0xa8#64) 8 bp).write (b + 0xb0#64) 8 ip
  have keptIp : (c.mem.write (b + 0xa8#64) 8 bp).read (b + 0x8#64) 8 = ip :=
    (apart c.mem bp (i := 0xa8) (j := 0x8) (by decide) (by decide)).trans second
  have keptAx : copied.read (b + 0x60#64) 8 = saved.ax :=
    (apart _ ip (i := 0xb0) (j := 0x60) (by decide) (by decide)).trans
      ((apart c.mem bp (i := 0xa8) (j := 0x60) (by decide) (by decide)).trans ax)
  have newBp : copied.read (b + 0xa8#64) 8 = bp :=
    (apart _ ip (i := 0xb0) (j := 0xa8) (by decide) (by decide)).trans
      (Memory.read_write_word _ _ _)
  have place : b + 0xa8#64 + 8#64 = b + 0xb0#64 := BitVec.add_assoc b 0xa8#64 8#64
  have last : b + 0xb0#64 + 8#64 = b + 0xb8#64 := BitVec.add_assoc b 0xb0#64 8#64
  simp only [execLine, leaveFrame, List.foldl, exec, Cpu.dropped, Cpu.top, Cpu.set, Cpu.mk.injEq]
  simp [Function.update, base, bottom, keptIp, place, last]
  funext r
  cases r <;> simp
  case rax => exact keptAx
  case rbp => exact newBp

/-! ## The whole way -/

/-- A frame depends on its own bytes. -/
theorem FrameAt.congr {m m' : Memory} {b bp ip : Word} {saved : PtRegs}
    (frame : FrameAt m b bp ip saved)
    (same : ∀ i < 184, m' (b + BitVec.ofNat 64 i) = m (b + BitVec.ofNat 64 i)) :
    FrameAt m' b bp ip saved := by
  have read (k : Nat) (inside : k + 8 ≤ 184) :
      m'.read (b + BitVec.ofNat 64 k) 8 = m.read (b + BitVec.ofNat 64 k) 8 := by
    apply Memory.read_congr
    intro i hi
    rw [← add_ofNat_add]
    exact same (k + i) (by omega)
  have word (k : Nat) (inside : k < 21) :
      PtRegs.wordAt m' (b + 0x10) k = PtRegs.wordAt m (b + 0x10) k := by
    have place : b + 0x10 + BitVec.ofNat 64 (8 * k) = b + BitVec.ofNat 64 (0x10 + 8 * k) := by
      rw [add_ofNat_add]
      rfl
    rw [PtRegs.wordAt, PtRegs.wordAt, place]
    exact read _ (by omega)
  have zero : b + BitVec.ofNat 64 0 = b := BitVec.add_zero b
  have low := read 0 (by decide)
  rw [zero] at low
  constructor
  · exact low.trans frame.bottom
  · exact (read 8 (by decide)).trans frame.second
  · exact (PtRegs.load_congr word).trans frame.above

/-- The frame that `int3_real_work` is called on. -/
theorem frameAt_realWork (work back : Word) (m : Memory) (regs : PtRegs) :
    let frame := buildFrame work m regs
    FrameAt (atRealWork back frame.1 frame.2).mem (regs.sp - 184) regs.bp regs.ip
      { regs with sp := regs.sp - PtRegs.size } := by
  let b := regs.sp - 184
  have loaded := load_enterRealWork work back m regs
  have a : regs.sp - PtRegs.size = b + BitVec.ofNat 64 16 := by
    simp only [b, PtRegs.size]
    bv_omega
  have pushed : regs.sp - PtRegs.size - 8 = b + BitVec.ofNat 64 8 := by
    simp only [b, PtRegs.size]
    bv_omega
  have base : regs.sp - PtRegs.size - 8 - 8 = b := by
    simp only [b, PtRegs.size]
    bv_omega
  have called (i : Nat) (inside : i < 16) : 8 ≤ offset (b - 8) (b + BitVec.ofNat 64 i) := by
    have distance : offset (b - 8) (b + BitVec.ofNat 64 i) = 8 + i :=
      offset_sub_add b 8 (by omega)
    omega
  simp only [atRealWork, buildFrame, enterRealWork] at loaded ⊢
  rw [base] at loaded ⊢
  rw [pushed] at loaded ⊢
  constructor
  · rw [Memory.read_write_of_disjoint _ _ fun i hi => called i (by omega)]
    exact Memory.read_write_word _ _ _
  · have next (i : Nat) : b + 8 + BitVec.ofNat 64 i = b + BitVec.ofNat 64 (8 + i) := by
      rw [add_ofNat_add]
      rfl
    have above (i : Nat) (hi : i < 8) : 8 ≤ offset b (b + 8 + BitVec.ofNat 64 i) := by
      rw [next, offset_add _ _ (by omega)]
      omega
    rw [Memory.read_write_of_disjoint _ _ fun i hi => next i ▸ called (8 + i) (by omega),
      Memory.read_write_of_disjoint _ _ above]
    exact Memory.read_write_word _ _ _
  · exact loaded

/-- What is on the stack above the trapped stack pointer when `int3_real_work` is called. -/
theorem atRealWork_above (work back : Word) (m : Memory) (regs : PtRegs) {i : Nat}
    (fits : i + 192 < 2 ^ 64) :
    let frame := buildFrame work m regs
    (atRealWork back frame.1 frame.2).mem (regs.sp + BitVec.ofNat 64 i)
      = m (regs.sp + BitVec.ofNat 64 i) := by
  let c := regs.sp - 192
  have place : regs.sp + BitVec.ofNat 64 i = c + BitVec.ofNat 64 (192 + i) :=
    (sub_add_ofNat_add regs.sp 192 i).symm
  have above {n : Nat} (w : Nat) (inside : n + w ≤ 192) :
      w ≤ offset (c + BitVec.ofNat 64 n) (c + BitVec.ofNat 64 (192 + i)) := by
    rw [offset_add_add _ (by omega) (by omega)]
    omega
  have stored : regs.sp - PtRegs.size = c + BitVec.ofNat 64 24 := by
    simp only [c, PtRegs.size]
    bv_omega
  have pushed : c + BitVec.ofNat 64 24 - 8 = c + BitVec.ofNat 64 16 := by bv_omega
  have base : c + BitVec.ofNat 64 16 - 8 = c + BitVec.ofNat 64 8 := by bv_omega
  have called : c + BitVec.ofNat 64 8 - 8 = c + BitVec.ofNat 64 0 := by bv_omega
  simp only [atRealWork, buildFrame, enterRealWork, stored, pushed, base, called, place]
  rw [Memory.write_of_le _ _ _ _ (above 8 (by decide)),
    Memory.write_of_le _ _ _ _ (above 8 (by decide)),
    Memory.write_of_le _ _ _ _ (above 8 (by decide))]
  apply Memory.writeWords_of_le
  · simp [PtRegs.words]
  · exact above 168 (by decide)

/-- A diverted trap ends where it came from: with the trapped registers and flags, at the
breakpoint, and with nothing changed on the stack from the trapped stack pointer upward. -/
theorem int3_trampoline_resumes {work back : Word} {s s' : Bp} {regs regs' : PtRegs} {room : Nat}
    {callee : Cpu → Cpu} (obeys : CallingConvention (room + 184) callee)
    (fits : room + 192 ≤ 2 ^ 64) (diverted : int3Drddr work s regs = (.diverted, s', regs')) :
    let resumed := execLine callee (int3ActualWork back) (returnFromTrap s'.text regs')
    (∀ r, resumed.gpr r = regs.reg r) ∧ resumed.flags = regs.flags ∧ resumed.rip = regs.ip - 1 ∧
      ∀ i < room, resumed.mem (regs.sp + BitVec.ofNat 64 i)
        = (s.bpRemove (regs.ip - 1)).2.text (regs.sp + BitVec.ofNat 64 i) := by
  obtain ⟨s₁, s₂, -, removed, counted, after, returned⟩ := int3Drddr_diverted diverted
  have text : s₂.text = s₁.text := by
    rcases s₁.bpIncTrapped_cases with ⟨-, result⟩ | ⟨-, result⟩
    · rw [result] at counted
      cases counted
    · rw [result] at counted
      cases counted
      rfl
  let rewound : PtRegs := { regs with ip := regs.ip - 1 }
  let frame := buildFrame work s₁.text rewound
  let entry := atRealWork back frame.1 frame.2
  let b := regs.sp - 184
  have start : returnFromTrap s'.text regs' = returnFromTrap frame.1 frame.2 := by
    rw [after, returned, text]
  have rsp : entry.gpr .rsp = b - 8 := by
    change regs.sp - PtRegs.size - 8 - 8 - 8 = b - 8
    simp only [b, PtRegs.size]
    bv_omega
  have base : entry.gpr .rsp + 8 = b := by
    rw [rsp]
    exact BitVec.sub_add_cancel b 8
  have inside (i : Nat) (kept : i < room + 184) :
      (callee entry).mem (b + BitVec.ofNat 64 i) = entry.mem (b + BitVec.ofNat 64 i) := by
    rw [← base]
    exact obeys.frame entry i kept
  have framed : FrameAt (callee entry).mem b regs.bp (regs.ip - 1)
      { rewound with sp := regs.sp - PtRegs.size } :=
    (frameAt_realWork work back s₁.text rewound).congr fun i hi => inside i (by omega)
  have rbp : (callee entry).gpr .rbp = b := by
    rw [obeys.saved entry .rbp (by decide)]
    change regs.sp - PtRegs.size - 8 - 8 = b
    simp only [b, PtRegs.size]
    bv_omega
  have high (r : Reg) (saved : r ∈ calleeSaved) : (callee entry).gpr r = entry.gpr r :=
    obeys.saved entry r saved
  have top : b + 184 = regs.sp := BitVec.sub_add_cancel regs.sp 184
  simp only [int3ActualWork, execLine_append, start, execLine_callRealWork]
  rw [execLine_restoreRegisters callee rbp framed, execLine_leaveFrame callee rfl framed]
  refine ⟨fun r => ?_, rfl, rfl, fun i hi => ?_⟩
  · cases r
    case rsp => exact top
    case r12 => exact high .r12 (by decide)
    case r13 => exact high .r13 (by decide)
    case r14 => exact high .r14 (by decide)
    case r15 => exact high .r15 (by decide)
    all_goals rfl
  · have place : regs.sp + BitVec.ofNat 64 i = b + BitVec.ofNat 64 (184 + i) := by
      rw [← top, add_ofNat_add]
      rfl
    have above (n : Nat) (small : n ≤ 176) :
        8 ≤ offset (b + BitVec.ofNat 64 n) (b + BitVec.ofNat 64 (184 + i)) := by
      rw [offset_add_add _ (by omega) (by omega)]
      omega
    have original := atRealWork_above work back s₁.text rewound (i := i) (by omega)
    rw [removed]
    refine .trans ?_ original
    change (((callee entry).mem.write (b + 0xa8#64) 8 regs.bp).write (b + 0xb0#64) 8
      (regs.ip - 1)) (regs.sp + BitVec.ofNat 64 i) = _
    rw [place, Memory.write_of_le _ _ _ _ (above 0xb0 (by decide)),
      Memory.write_of_le _ _ _ _ (above 0xa8 (by decide))]
    exact inside (184 + i) (by omega)

/-- A function that clears every register and flag that it may, and writes to its stack. -/
def clobber (c : Cpu) : Cpu where
  gpr r := if r = .rsp then c.gpr .rsp + 8 else if r ∈ calleeSaved then c.gpr r else 0
  flags := 0
  rip := c.top
  mem := c.mem.write (c.gpr .rsp - 8) 8 0

/-- `clobber` follows the calling convention. -/
theorem callingConvention_clobber {room : Nat} (fits : room + 16 ≤ 2 ^ 64) :
    CallingConvention room clobber := by
  constructor
  · intro c
    rfl
  · intro c r saved
    have other : r ≠ .rsp := by
      rintro rfl
      exact absurd saved (by decide)
    simp [clobber, other, saved]
  · intro c i hi
    have place : c.gpr .rsp + 8 + BitVec.ofNat 64 i
        = c.gpr .rsp - 8 + BitVec.ofNat 64 (16 + i) := by
      rw [BitVec.ofNat_add]
      bv_omega
    apply Memory.write_of_le
    rw [place, offset_add _ _ (by omega)]
    omega

/-- Registers when a push traps, of which no two are the same. -/
def apartTrapRegs : PtRegs :=
  { pushTrapRegs with
    r15 := 0xf15, r14 := 0xf14, r13 := 0xf13, r12 := 0xf12, bp := 0x8040, bx := 0xb1,
    r11 := 0xf11, r10 := 0xf10, r9 := 0xf09, r8 := 0xf08, ax := 0xa1, cx := 0xc1, dx := 0xd1,
    si := 0x51, di := 0xd2, flags := 0x246 }

/-- The way back to a push restores all registers, though the function that is called clears them.
-/
theorem int3_trampoline_resumes_push :
    let after := int3Drddr 0x5000 pushTrap apartTrapRegs
    let resumed := execLine clobber (int3ActualWork 0x5010)
      (returnFromTrap after.2.1.text after.2.2)
    (∀ r, resumed.gpr r = apartTrapRegs.reg r) ∧ resumed.flags = apartTrapRegs.flags ∧
      resumed.rip = apartTrapRegs.ip - 1 ∧
      ∀ i < 0x8000, resumed.mem (apartTrapRegs.sp + BitVec.ofNat 64 i)
        = (pushTrap.bpRemove (apartTrapRegs.ip - 1)).2.text
          (apartTrapRegs.sp + BitVec.ofNat 64 i) :=
  @int3_trampoline_resumes _ _ _ _ _ _ 0x8000 clobber (callingConvention_clobber (by decide))
    (by decide) (Prod.ext (by decide) rfl)

end Drddr
