import Drddr.Machine.Memory

/-!
# Straight-line assembly

The integer registers of x86-64 and the instructions of a straight line of code. The line has no
addresses: its position is the list that is left, and the instruction pointer is the one that a
return loads. A called function is an argument.
-/

namespace Machine

/-- The general registers. -/
inductive Reg where
  | rax
  | rcx
  | rdx
  | rbx
  | rsp
  | rbp
  | rsi
  | rdi
  | r8
  | r9
  | r10
  | r11
  | r12
  | r13
  | r14
  | r15
  deriving DecidableEq, Repr

/-- A processor and its memory. -/
structure Cpu where
  gpr : Reg → Word
  flags : Word
  rip : Word
  mem : Memory

/-- Instructions, with the operands in the order of the assembler. -/
inductive Instr where
  /-- `push %src` -/
  | push (src : Reg)
  /-- `mov %src,%dst` -/
  | mov (src dst : Reg)
  /-- `leaq disp(%base),%dst` -/
  | lea (disp : Word) (base dst : Reg)
  /-- `movq disp(%base),%dst` -/
  | load (disp : Word) (base dst : Reg)
  /-- `movq %src,disp(%base)` -/
  | store (src : Reg) (disp : Word) (base : Reg)
  /-- `callq`, with the address it returns to. -/
  | call (back : Word)
  /-- `popfq` -/
  | popf
  /-- `leaveq` -/
  | leave
  /-- `retq` -/
  | ret

namespace Cpu

variable (c : Cpu)

/-- Change one register. -/
def set (r : Reg) (v : Word) : Cpu := { c with gpr := Function.update c.gpr r v }

/-- Push a word. -/
def pushed (v : Word) : Cpu :=
  { c.set .rsp (c.gpr .rsp - 8) with mem := c.mem.write (c.gpr .rsp - 8) 8 v }

/-- The word on top of the stack. -/
def top : Word := c.mem.read (c.gpr .rsp) 8

/-- Drop the word on top of the stack. -/
def dropped : Cpu := c.set .rsp (c.gpr .rsp + 8)

/-- A write to a register changes that register. -/
@[simp] theorem set_gpr (r : Reg) (v : Word) : (c.set r v).gpr = Function.update c.gpr r v := rfl

/-- A write to a register leaves the memory. -/
@[simp] theorem set_mem (r : Reg) (v : Word) : (c.set r v).mem = c.mem := rfl

/-- A write to a register leaves the flags. -/
@[simp] theorem set_flags (r : Reg) (v : Word) : (c.set r v).flags = c.flags := rfl

/-- A write to a register leaves the instruction pointer. -/
@[simp] theorem set_rip (r : Reg) (v : Word) : (c.set r v).rip = c.rip := rfl

/-- A register holds what has been written to it. -/
@[simp] theorem set_self (r : Reg) (v : Word) : (c.set r v).gpr r = v := by simp [set]

/-- Every other register is unchanged. -/
theorem set_of_ne (v : Word) {r r' : Reg} (other : r' ≠ r) : (c.set r v).gpr r' = c.gpr r' := by
  simp [set, Function.update_of_ne other]

/-- A push writes below the stack pointer. -/
@[simp] theorem pushed_mem (v : Word) : (c.pushed v).mem = c.mem.write (c.gpr .rsp - 8) 8 v := rfl

/-- A push lowers the stack pointer. -/
@[simp] theorem pushed_rsp (v : Word) : (c.pushed v).gpr .rsp = c.gpr .rsp - 8 := by
  simp [pushed]

/-- Only the stack pointer changes. -/
theorem pushed_of_ne (v : Word) {r : Reg} (other : r ≠ .rsp) : (c.pushed v).gpr r = c.gpr r := by
  simp [pushed, Function.update_of_ne other]

end Cpu

/-- Execute one instruction. `popfq` loads the flags whole: every bit that it cannot write has one
value, in the word that it loads as in the register. -/
def exec (callee : Cpu → Cpu) : Instr → Cpu → Cpu
  | .push src, c => c.pushed (c.gpr src)
  | .mov src dst, c => c.set dst (c.gpr src)
  | .lea disp base dst, c => c.set dst (c.gpr base + disp)
  | .load disp base dst, c => c.set dst (c.mem.read (c.gpr base + disp) 8)
  | .store src disp base, c => { c with mem := c.mem.write (c.gpr base + disp) 8 (c.gpr src) }
  | .call back, c => callee (c.pushed back)
  | .popf, c => { c.dropped with flags := c.top }
  | .leave, c =>
    let c := c.set .rsp (c.gpr .rbp)
    c.dropped.set .rbp c.top
  | .ret, c => { c.dropped with rip := c.top }

/-- Execute a line of instructions. -/
def execLine (callee : Cpu → Cpu) (line : List Instr) (c : Cpu) : Cpu :=
  line.foldl (fun c instr => exec callee instr c) c

/-- Two lines run one after the other. -/
theorem execLine_append (callee : Cpu → Cpu) (first second : List Instr) (c : Cpu) :
    execLine callee (first ++ second) c = execLine callee second (execLine callee first c) :=
  List.foldl_append

/-- The registers that a function returns unchanged. -/
def calleeSaved : List Reg := [.rbx, .rbp, .r12, .r13, .r14, .r15]

/-- A function that follows the calling convention of C: it returns with the stack it was called
on and the saved registers, and of the bytes from its caller's frame upward, so many of them, it
writes none. -/
structure CallingConvention (room : Nat) (callee : Cpu → Cpu) : Prop where
  rsp : ∀ c, (callee c).gpr .rsp = c.gpr .rsp + 8
  saved : ∀ c, ∀ r ∈ calleeSaved, (callee c).gpr r = c.gpr r
  frame : ∀ c, ∀ i < room, (callee c).mem (c.gpr .rsp + 8 + BitVec.ofNat 64 i)
    = c.mem (c.gpr .rsp + 8 + BitVec.ofNat 64 i)

end Machine
