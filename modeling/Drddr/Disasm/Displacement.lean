import Drddr.Disasm.Report

/-!
# Displacements

The decoder adds a displacement as an unsigned number where the processor sign-extends it. The
two agree on an address exactly when the displacement is not negative, or is as wide as the
address.
-/

namespace Drddr

open Machine

/-! ## Numbers cut to an address size -/

/-- Each bit of an address is one of the number that was cut. -/
theorem getLsbD_truncateAddress (addr32 : Bool) (x : Word) (i : Nat) :
    (truncateAddress addr32 x).getLsbD i = (decide (addr32 = true → i < 32) && x.getLsbD i) := by
  cases addr32 with
  | false => simp [truncateAddress]
  | true =>
    simp only [truncateAddress, if_true, BitVec.getLsbD_setWidth]
    by_cases low : i < 32
    · simp [low, show i < 64 by omega]
    · simp [low]

/-- The sign bit of the low part of a number is a bit of the number. -/
theorem msb_setWidth {w : Nat} (x : Word) (positive : 0 < w) :
    (x.setWidth w).msb = x.getLsbD (w - 1) := by
  rw [BitVec.msb_eq_getLsbD_last, BitVec.getLsbD_setWidth, decide_eq_true (by omega),
    Bool.true_and]

/-- A number and its negative reading give one address exactly when it is not negative or is as
wide as the address. -/
theorem truncateAddress_signExtend_iff {w : Nat} (narrow : w ≤ 32) (addr32 : Bool) (x : BitVec w) :
    truncateAddress addr32 (x.signExtend 64) = truncateAddress addr32 (x.setWidth 64) ↔
      x.msb = false ∨ (w = 32 ∧ addr32 = true) := by
  constructor
  · intro same
    by_contra neither
    have negative : x.msb = true := by simpa using fun positive => neither (.inl positive)
    have shown : addr32 = true → w < 32 := by
      intro short
      have notWide : w ≠ 32 := fun wide => neither (.inr ⟨wide, short⟩)
      omega
    have bit := congrArg (fun y => y.getLsbD w) same
    have inside : w < 64 := by omega
    simp only [getLsbD_truncateAddress, BitVec.getLsbD_signExtend, BitVec.getLsbD_setWidth, inside,
      decide_true, Bool.true_and, Nat.lt_irrefl, if_false, negative, Bool.and_true,
      decide_eq_true shown, BitVec.getLsbD_of_ge x w (Nat.le_refl w)] at bit
    exact absurd bit.symm Bool.false_ne_true
  · intro agree
    cases agree with
    | inl positive => rw [BitVec.signExtend_eq_setWidth_of_msb_false positive]
    | inr wide =>
      obtain ⟨rfl, rfl⟩ := wide
      apply BitVec.eq_of_getLsbD_eq
      intro i inside
      simp only [getLsbD_truncateAddress, BitVec.getLsbD_signExtend, BitVec.getLsbD_setWidth]
      by_cases low : i < 32
      · simp [low]
      · simp [low]

/-- Of two sums with a summand in common, only the other one counts. -/
theorem truncateAddress_add_left (addr32 : Bool) (r x y : Word) :
    truncateAddress addr32 (r + x) = truncateAddress addr32 (r + y) ↔
      truncateAddress addr32 x = truncateAddress addr32 y := by
  cases addr32 with
  | false => simp [truncateAddress]
  | true =>
    have widened (p q : BitVec 32) : p.setWidth 64 = q.setWidth 64 ↔ p = q := by
      constructor
      · intro same
        have back := congrArg (fun z => z.setWidth 32) same
        simpa using back
      · intro same
        rw [same]
    have low (z : Word) : (r + z).setWidth 32 = r.setWidth 32 + z.setWidth 32 :=
      BitVec.setWidth_add _ _ (by decide)
    simp only [truncateAddress, if_true, widened, low, BitVec.add_right_inj]

namespace AddressForm

/-! ## Displacements of an address -/

/-- A displacement has no bytes, one or four. -/
theorem dispSize_cases (m : Memory) (rex : Byte) (a : Word) :
    (addressForm m rex a).dispSize = 0 ∨ (addressForm m rex a).dispSize = 1 ∨
      (addressForm m rex a).dispSize = 4 := by
  unfold addressForm dispBytes
  simp only
  split_ifs <;> simp

/-- The stack pointer is never an index. -/
theorem index_ne_sp (m : Memory) (rex : Byte) (a : Word) (scale : Nat) :
    (addressForm m rex a).index ≠ some (4, scale) := by
  have named (number field : Nat) :
      (if number = 4 then none else some (number, field)) ≠ some (4, scale) := by
    split
    · exact nofun
    · rename_i other
      intro same
      exact other (congrArg Prod.fst (Option.some.inj same))
  unfold addressForm
  split
  · exact named _ _
  · exact nofun

/-- A displacement of one width, read and sign-extended. -/
theorem truncateAddress_disp_iff {f : AddressForm} (m : Memory)
    (sized : f.dispSize = 0 ∨ f.dispSize = 1 ∨ f.dispSize = 4) (addr32 : Bool) :
    truncateAddress addr32 (f.dispRead m) = truncateAddress addr32 (f.disp m) ↔
      f.dispNegative m = false ∨ (f.dispSize = 4 ∧ addr32 = true) := by
  have back (n : Nat) := m.setWidth_read f.dispAt n
  rcases sized with absent | short | long
  · simp [dispRead, disp, dispNegative, absent, Memory.read]
  · have agree := truncateAddress_signExtend_iff (by decide) addr32 ((m.read f.dispAt 1).setWidth 8)
    rw [back 1, msb_setWidth _ (by decide)] at agree
    have value : f.disp m = ((m.read f.dispAt 1).setWidth 8).signExtend 64 := by
      rw [disp, if_pos short]
    rw [value, dispRead, dispNegative, short, eq_comm, agree]
    simp
  · have agree := truncateAddress_signExtend_iff (by decide) addr32
      ((m.read f.dispAt 4).setWidth 32)
    rw [back 4, msb_setWidth _ (by decide)] at agree
    have value : f.disp m = ((m.read f.dispAt 4).setWidth 32).signExtend 64 := by
      rw [disp, if_neg (by omega), if_pos long]
    rw [value, dispRead, dispNegative, long, eq_comm, agree]
    simp

end AddressForm

/-! ## The reported address -/

/-- The decoder reports the effective address exactly when the displacement is not negative or
is as wide as the address. -/
theorem modrm_address_iff (m : Memory) (regs : PtRegs) (out : Access) (e : Encoding)
    (accesses : e.AccessesModRM m regs.ip) :
    ∃ acc, yyGetMemoryAccess m regs out = some acc ∧
      (acc.dataAddr 0 = (e.addressForm m regs.ip).effectiveAddress m regs e.addr32 ↔
        (e.addressForm m regs.ip).dispNegative m = false ∨
          ((e.addressForm m regs.ip).dispSize = 4 ∧ e.addr32 = true)) := by
  obtain ⟨acc, decoded, reported⟩ := yyGetMemoryAccess_modRM out accesses
  have sized := AddressForm.dispSize_cases m e.rex (e.tail regs.ip)
  refine ⟨acc, decoded, ?_⟩
  rw [reported, AddressForm.effectiveAddress, truncateAddress_add_left]
  exact AddressForm.truncateAddress_disp_iff m sized e.addr32

/-- A store through base, index and displacement, in 32-bit addresses. -/
def scaledStore : Encoding := { prefixes := [0x67, 0x4b], twobyte := false, opcode := 0x89 }

/-- The memory with `mov %rax, 0x10(%r13d,%r10d,4)`. -/
def scaledStoreAt : Memory := .ofBytes 0x1000 [0x67, 0x4b, 0x89, 0x44, 0x95, 0x10]

/-- Registers before the scaled store. -/
def scaledStoreRegs : PtRegs :=
  { (default : PtRegs) with ip := 0x1000, r13 := 0xfffffff8, r10 := 5 }

/-- The address of the scaled store is computed as the processor does. -/
theorem modrm_address_iff_scaled :
    ∃ acc, yyGetMemoryAccess scaledStoreAt scaledStoreRegs ⟨0, 0, fun _ => false⟩ = some acc ∧
      (acc.dataAddr 0 = (scaledStore.addressForm scaledStoreAt 0x1000).effectiveAddress
          scaledStoreAt scaledStoreRegs true ↔
        (scaledStore.addressForm scaledStoreAt 0x1000).dispNegative scaledStoreAt = false ∨
          ((scaledStore.addressForm scaledStoreAt 0x1000).dispSize = 4 ∧ true = true)) :=
  modrm_address_iff scaledStoreAt scaledStoreRegs ⟨0, 0, fun _ => false⟩ scaledStore
    ⟨by decide, by decide, by decide, by decide⟩

/-- `mov %edi, -0x24(%rbp)`, a store from `disassem-test.c`. -/
def frameStore : Encoding := { prefixes := [], twobyte := false, opcode := 0x89 }

/-- The memory with the store into the frame. -/
def frameStoreAt : Memory := .ofBytes 0x1000 [0x89, 0x7d, 0xdc]

/-- Registers before the store into the frame. -/
def frameStoreRegs : PtRegs := { (default : PtRegs) with ip := 0x1000, bp := 0xdeadbeef }

/-- The store into the frame is reported 256 bytes above its effective address. -/
theorem modrm_address_negative_disp :
    frameStore.AccessesModRM frameStoreAt frameStoreRegs.ip ∧
      (yyGetMemoryAccess frameStoreAt frameStoreRegs ⟨0, 0, fun _ => false⟩).map (·.dataAddr 0)
        = some (0xdeadbeef + 0xdc) ∧
      (frameStore.addressForm frameStoreAt 0x1000).effectiveAddress frameStoreAt frameStoreRegs
        frameStore.addr32 = 0xdeadbeef - 0x24 ∧
      (0xdeadbeef + 0xdc : Word) ≠ 0xdeadbeef - 0x24 :=
  ⟨⟨by decide, by decide, by decide, by decide⟩, by decide, by decide, by decide⟩

end Drddr
