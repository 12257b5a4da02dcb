import Drddr.Machine.Memory

/-!
# Saved registers

`struct pt_regs` of the x86-64 kernel, with the field order of `disassem-test.c`, and
its image in memory: twenty-one consecutive words.
-/

namespace Drddr

open Machine

/-- `struct pt_regs`. -/
structure PtRegs where
  r15 : Word
  r14 : Word
  r13 : Word
  r12 : Word
  bp : Word
  bx : Word
  r11 : Word
  r10 : Word
  r9 : Word
  r8 : Word
  ax : Word
  cx : Word
  dx : Word
  si : Word
  di : Word
  origAx : Word
  ip : Word
  cs : Word
  flags : Word
  sp : Word
  ss : Word
  deriving DecidableEq, Repr, Inhabited

namespace PtRegs

/-- The fields in memory order. -/
def words (r : PtRegs) : List Word :=
  [r.r15, r.r14, r.r13, r.r12, r.bp, r.bx, r.r11, r.r10, r.r9, r.r8, r.ax, r.cx, r.dx, r.si, r.di,
    r.origAx, r.ip, r.cs, r.flags, r.sp, r.ss]

/-- `sizeof (struct pt_regs)`. -/
def size : Word := 168

/-- Store the structure at an address. -/
def store (m : Memory) (a : Word) (r : PtRegs) : Memory := m.writeWords a r.words

/-- The word of a stored structure at a position. -/
def wordAt (m : Memory) (a : Word) (k : Nat) : Word := m.read (a + BitVec.ofNat 64 (8 * k)) 8

/-- Load the structure at an address. -/
def load (m : Memory) (a : Word) : PtRegs where
  r15 := wordAt m a 0
  r14 := wordAt m a 1
  r13 := wordAt m a 2
  r12 := wordAt m a 3
  bp := wordAt m a 4
  bx := wordAt m a 5
  r11 := wordAt m a 6
  r10 := wordAt m a 7
  r9 := wordAt m a 8
  r8 := wordAt m a 9
  ax := wordAt m a 10
  cx := wordAt m a 11
  dx := wordAt m a 12
  si := wordAt m a 13
  di := wordAt m a 14
  origAx := wordAt m a 15
  ip := wordAt m a 16
  cs := wordAt m a 17
  flags := wordAt m a 18
  sp := wordAt m a 19
  ss := wordAt m a 20

/-- A stored structure is loaded back unchanged. -/
@[simp] theorem load_store (m : Memory) (a : Word) (r : PtRegs) : load (r.store m a) a = r := by
  have field (k : Nat) (inside : k < r.words.length) :
      wordAt (r.store m a) a k = r.words[k] :=
    Memory.read_writeWords m a r.words (by simp [words]) k inside
  cases r
  simp only [load, PtRegs.mk.injEq]
  refine ⟨?_, ?_, ?_, ?_, ?_, ?_, ?_, ?_, ?_, ?_, ?_, ?_, ?_, ?_, ?_, ?_, ?_, ?_, ?_, ?_, ?_⟩ <;>
    exact field _ (by simp [words])

/-- A structure is loaded from its words. -/
theorem load_congr {m m' : Memory} {a : Word} (word : ∀ k < 21, wordAt m' a k = wordAt m a k) :
    load m' a = load m a := by
  simp [load, word]

/-- A word written below a structure leaves it alone. -/
theorem load_write_below (m : Memory) (a v : Word) {n : Nat} (below : 8 ≤ n)
    (fits : n + 168 ≤ 2 ^ 64) : load (m.write (a - BitVec.ofNat 64 n) 8 v) a = load m a := by
  apply load_congr
  intro k inside
  apply Memory.read_write_of_disjoint
  intro i hi
  have place : a + BitVec.ofNat 64 (8 * k) + BitVec.ofNat 64 i
      = a - BitVec.ofNat 64 n + BitVec.ofNat 64 (n + 8 * k + i) := by
    rw [BitVec.ofNat_add, BitVec.ofNat_add]
    abel
  rw [place, offset_add _ _ (by omega)]
  omega

/-- The sixteen general registers by their number in an instruction encoding. -/
def gpr (r : PtRegs) : Nat → Word
  | 0 => r.ax
  | 1 => r.cx
  | 2 => r.dx
  | 3 => r.bx
  | 4 => r.sp
  | 5 => r.bp
  | 6 => r.si
  | 7 => r.di
  | 8 => r.r8
  | 9 => r.r9
  | 10 => r.r10
  | 11 => r.r11
  | 12 => r.r12
  | 13 => r.r13
  | 14 => r.r14
  | 15 => r.r15
  | _ => 0

/-- The stack pointer is register 4 and no other. -/
theorem gpr_with_sp (r : PtRegs) (sp : Word) (i : Nat) :
    gpr { r with sp } i = if i = 4 then sp else r.gpr i := by
  unfold gpr
  split <;> simp_all

end PtRegs

end Drddr
