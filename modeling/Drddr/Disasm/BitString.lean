import Drddr.Disasm.Prefixes
import Drddr.Machine.Block

/-!
# Bit strings

A bit operation with its offset in a register accesses one operand of the bit string that starts
at its ModRM operand: the one that the offset, a signed number, falls in. The decoder takes the
offset for an unsigned number and keeps 32 bits of it.
-/

namespace Drddr

open Machine

/-- Bytes from the start of a bit string to the operand of `n` bytes with a bit in it. -/
def bitWord (n : Nat) (offset : Int) : Int := n * (offset / (8 * n))

/-- The register with the bit offset, read as a signed number of the operand size. -/
def Encoding.bitOffset (e : Encoding) (m : Memory) (regs : PtRegs) : Int :=
  ((regs.gpr (extendReg (e.rex.getLsbD 2) (regField (m (e.tail regs.ip))))).setWidth
    (8 * e.opBytes)).toInt

/-! ## The mask -/

/-- A mask of 32 bits that clears the low ones rounds down what it keeps. -/
theorem and_mask (log : Nat) (value : Word) {mask : BitVec 32}
    (bits : ∀ i : Fin 64, (mask.setWidth 64).getLsbD i = (decide (log ≤ i) && decide (i < 32))) :
    value &&& mask.setWidth 64 = blockStart log ((value.setWidth 32).setWidth 64) := by
  apply BitVec.eq_of_getLsbD_eq
  intro i inside
  have bit : (mask.setWidth 64).getLsbD i = (decide (log ≤ i) && decide (i < 32)) :=
    bits ⟨i, inside⟩
  rw [BitVec.getLsbD_and, bit, blockStart, BitVec.getLsbD_shiftLeft, BitVec.getLsbD_ushiftRight,
    BitVec.getLsbD_setWidth, BitVec.getLsbD_setWidth]
  by_cases low : i < log
  · simp [low]
  · have back : log + (i - log) = i := by omega
    have kept : log ≤ i := Nat.le_of_not_lt low
    rw [back]
    simp [low, kept, inside, Bool.and_comm]

/-- What the decoder adds to the address: the offset, as an unsigned number of at most 32 bits, is
rounded down to an operand. -/
theorem toNat_bitDistance {n : Nat} (size : n = 2 ∨ n = 4 ∨ n = 8) (value : Word) :
    ((DecodeCache.lowBytes n value &&& (~~~(BitVec.ofNat 32 n * 8 - 1)).setWidth 64) / 8).toNat =
      n * (value.toNat % 2 ^ (8 * n) % 2 ^ 32 / (8 * n)) := by
  have eight : (8 : Word).toNat = 8 := rfl
  have inside := value.isLt
  rw [BitVec.toNat_udiv, eight]
  rcases size with rfl | rfl | rfl
  · have low : DecodeCache.lowBytes 2 value = (value.setWidth 16).setWidth 64 := rfl
    rw [low, and_mask 4 _ (by decide), toNat_blockStart]
    simp only [BitVec.toNat_setWidth]
    omega
  · have low : DecodeCache.lowBytes 4 value = (value.setWidth 32).setWidth 64 := rfl
    rw [low, and_mask 5 _ (by decide), toNat_blockStart]
    simp only [BitVec.toNat_setWidth]
    omega
  · have low : DecodeCache.lowBytes 8 value = value := rfl
    rw [low, and_mask 6 _ (by decide), toNat_blockStart]
    simp only [BitVec.toNat_setWidth]
    omega

/-- The distance that the decoder adds is that of the operand with the bit exactly when the offset
is not negative and has no more than 32 bits. -/
theorem bitDistance_eq_iff {n : Nat} (size : n = 2 ∨ n = 4 ∨ n = 8) (value : Word) :
    (DecodeCache.lowBytes n value &&& (~~~(BitVec.ofNat 32 n * 8 - 1)).setWidth 64) / 8 =
        BitVec.ofInt 64 (bitWord n (value.setWidth (8 * n)).toInt) ↔
      0 ≤ (value.setWidth (8 * n)).toInt ∧ (value.setWidth (8 * n)).toInt < 2 ^ 32 := by
  have inside := value.isLt
  rw [← BitVec.toNat_inj, toNat_bitDistance size, BitVec.toNat_ofInt, bitWord,
    BitVec.toInt_eq_toNat_cond, BitVec.toNat_setWidth]
  rcases size with rfl | rfl | rfl <;> simp only [Nat.reduceMul] <;> split <;> omega

/-! ## The decoder -/

/-- A bit operation has the ModRM operand for its destination and a register for its source. -/
def Flags.BitOpAlone (d : Flags) : Prop :=
  d.has Op.bitOp = true →
    d.has Op.modRM = true ∧ d &&& Op.srcMask = Op.srcReg ∧ d &&& Op.dstMask = Op.dstMem ∧
      d.has Op.byteOp = false ∧ d.has Op.stack = false ∧ d.has Op.push = false

instance (d : Flags) : Decidable d.BitOpAlone := inferInstanceAs (Decidable (_ → _))

set_option maxRecDepth 2048 in
/-- In the tables, a bit operation has no other operand in memory. -/
theorem Encoding.bitOpAlone (e : Encoding) (modrm : Byte) : (e.entry modrm).BitOpAlone :=
  of_decide_eq_true <| entry_forall (p := fun d => decide d.BitOpAlone) (by decide) (by decide)
    (by decide) (by decide) (by decide) e modrm

namespace DecodeCache

/-- A bit operation on memory is reported at its target, as a write of its operand size. -/
theorem reported_bitOp {c : DecodeCache} (bitOp : c.d.has Op.bitOp = true) (alone : c.d.BitOpAlone)
    (apart : c.d.OperandsApart) (memory : c.modrmMod ≠ 3) :
    c.reported = some (c.d.examined ⟨c.bitTarget, c.d.destBytes c.opBytes, true⟩) := by
  obtain ⟨modRM, srcReg, dstMem, -, -, notPush⟩ := alone bitOp
  have explicit : c.d.Explicit := by
    rw [Flags.Explicit, dstMem]
    decide
  have notSource : ¬c.d.SrcModRM := by
    rw [Flags.SrcModRM, srcReg]
    decide
  have destination : c.d.DstModRM := by
    rw [Flags.DstModRM, dstMem]
    decide
  rw [reported_destination modRM explicit notPush apart notSource destination memory, bitOp]
  rfl

/-- The address of a bit operation, with its offset from the register that the ModRM byte names. -/
theorem bitTarget_eq {c : DecodeCache} (bitOp : c.d.has Op.bitOp = true)
    (alone : c.d.BitOpAlone) :
    c.bitTarget = c.modrmEa + (lowBytes c.opBytes (c.regs c.modrmReg.toNat) &&&
      (~~~(BitVec.ofNat 32 c.opBytes * 8 - 1)).setWidth 64) / 8 := by
  obtain ⟨modRM, -, dstMem, notByte, -, -⟩ := alone bitOp
  have bytes : c.d.destBytes c.opBytes = c.opBytes := by
    rw [Flags.destBytes, dstMem, if_neg (by decide), notByte]
    rfl
  have offset : (c.decodeRegisterOperand c.src false).val =
      lowBytes c.opBytes (c.regs c.modrmReg.toNat) := by
    simp [decodeRegisterOperand, modRM, notByte]
  rw [bitTarget, bytes, bitAddress]
  simp only [offset]

end DecodeCache

/-- The address that the decoder finds for a ModRM operand in memory, in 64-bit addresses. -/
def operandAddress (m : Memory) (regs : PtRegs) (rex : Byte) (a : Word) : Word :=
  if IsRipForm (m a) then
    if rex.getLsbD 0 then a + 1#64 else m.read (a + 1#64) 4 + (a + 5#64)
  else (addressForm m rex a).registers regs + (addressForm m rex a).dispRead m

/-- The address that the address stage finds for an operand in memory. -/
theorem address_operand {m : Memory} {regs : PtRegs} {e : Encoding} (segSet : Bool) (seg : Byte)
    (modRM : (e.entry (m (e.tail regs.ip))).has Op.modRM = true)
    (memory : modField (m (e.tail regs.ip)) ≠ 3) (wide : 0x67 ∉ e.prefixes) :
    ((DecodeCache.afterLookup m regs e segSet seg).address m regs).modrmEa =
      operandAddress m regs e.rex (e.tail regs.ip) := by
  unfold operandAddress
  by_cases rip : IsRipForm (m (e.tail regs.ip))
  · rw [DecodeCache.address_rip modRM rip, if_pos rip]
  · have cut : e.addr32 = false := decide_eq_false wide
    rw [DecodeCache.address_modRM modRM ⟨memory, rip⟩, if_neg rip, cut]
    rfl

/-- The address of an operand depends on the bytes of the operand and on the registers. -/
theorem operandAddress_congr {m m' : Memory} {a : Word} (memory : modField (m a) ≠ 3)
    (same : m.SameBytes m' a a (modrmLength (m a) (m (a + 1#64)))) (regs : PtRegs) (rex : Byte) :
    operandAddress m' regs rex a = operandAddress m regs rex a := by
  have modrm : m a = m' a := by
    simpa using same 0 (modrmLength_pos _ _)
  unfold operandAddress
  rw [← modrm]
  by_cases rip : IsRipForm (m a)
  · have length : modrmLength (m a) (m (a + 1#64)) = 5 := by
      rw [modrmLength, if_neg memory, if_neg (by rw [rip.2]; decide)]
      exact if_pos rip
    rw [length] at same
    have disp : m.read (a + 1#64) 4 = m'.read (a + 1#64) 4 :=
      (same.part (i := 1) (k := 4) (by decide)).read
    rw [if_pos rip, if_pos rip, disp]
  · rw [if_neg rip, if_neg rip]
    exact address_congr _ ⟨memory, rip⟩ same rfl

/-! ## The reported address -/

/-- An instruction with the same prefixes, escape byte and ModRM operand, which reports that operand
as it is. -/
structure Encoding.PlainTwin (e : Encoding) (opcode : Byte) (m m' : Memory) (ip : Word) : Prop where
  held : ({ e with opcode } : Encoding).HeldAt m' ip
  reports : (({ e with opcode } : Encoding).entry (m' (e.tail ip))).ReportsModRM
  notInvlpg : ¬(e.twobyte = true ∧ opcode = 0x01 ∧
    extendReg (e.rex.getLsbD 2) (regField (m' (e.tail ip))) = 7)
  bytes : m.SameBytes m' (e.tail ip) (e.tail ip)
    (modrmLength (m (e.tail ip)) (m (e.tail ip + 1#64)))

/-- The opcode does not move the operand. -/
theorem Encoding.tail_opcode (e : Encoding) (opcode : Byte) (ip : Word) :
    ({ e with opcode } : Encoding).tail ip = e.tail ip := by
  unfold tail opcodeBytes
  cases e.twobyte <;> rfl

/-- `yy_get_memory_access` on an operand in memory that is reported as it is. -/
theorem yyGetMemoryAccess_operand {m : Memory} {regs : PtRegs} {e : Encoding} (out : Access)
    (held : e.HeldAt m regs.ip) (reports : (e.entry (m (e.tail regs.ip))).ReportsModRM)
    (notInvlpg : ¬(e.twobyte = true ∧ e.opcode = 0x01 ∧
      extendReg (e.rex.getLsbD 2) (regField (m (e.tail regs.ip))) = 7))
    (memory : modField (m (e.tail regs.ip)) ≠ 3) (wide : 0x67 ∉ e.prefixes) :
    ∃ acc, yyGetMemoryAccess m regs out = some acc ∧
      acc.dataAddr 0 = operandAddress m regs e.rex (e.tail regs.ip) := by
  obtain ⟨segSet, seg, found⟩ :=
    yyGetMemoryAccess_reported held (e.isOpcode_of_modRM reports.modRM)
  have entry : _ = e.entry (m (e.tail regs.ip)) :=
    (DecodeCache.carries_address m regs (.afterLookup m regs e segSet seg)).d
  obtain ⟨three, invlpg, -⟩ := address_fields segSet seg reports.modRM
  have ea := address_operand segSet seg reports.modRM memory wide
  have notReg := mt three.mp memory
  have apart := e.operandsApart (m (e.tail regs.ip))
  rw [← entry] at reports apart
  refine ⟨_, found out, ?_⟩
  rw [DecodeCache.reported_modRM reports apart notReg fun is => notInvlpg (invlpg.mp is),
    Access.fill_dataAddr, Flags.examined_addr, ea]

/-- `yy_get_memory_access` reports the plain twin at the address of its operand. -/
theorem yyGetMemoryAccess_plainTwin {m m' : Memory} {regs : PtRegs} {e : Encoding} {opcode : Byte}
    (out : Access) (twin : e.PlainTwin opcode m m' regs.ip)
    (memory : modField (m (e.tail regs.ip)) ≠ 3) (wide : 0x67 ∉ e.prefixes) :
    ∃ acc, yyGetMemoryAccess m' regs out = some acc ∧
      acc.dataAddr 0 = operandAddress m regs e.rex (e.tail regs.ip) := by
  have modrm : m (e.tail regs.ip) = m' (e.tail regs.ip) := by
    simpa using twin.bytes 0 (modrmLength_pos _ _)
  have here := e.tail_opcode opcode regs.ip
  obtain ⟨acc, decoded, addr⟩ := yyGetMemoryAccess_operand out twin.held
    (by rw [here]; exact twin.reports) (by rw [here]; exact twin.notInvlpg)
    (by rw [here, ← modrm]; exact memory) wide
  refine ⟨acc, decoded, ?_⟩
  rw [addr, here]
  exact operandAddress_congr memory twin.bytes regs e.rex

/-- `yy_get_memory_access` reports a bit operation at the address of its operand, moved by the
offset in its register. -/
theorem yyGetMemoryAccess_bitOp {m : Memory} {regs : PtRegs} {e : Encoding} (out : Access)
    (held : e.HeldAt m regs.ip) (bitOp : (e.entry (m (e.tail regs.ip))).has Op.bitOp = true)
    (memory : modField (m (e.tail regs.ip)) ≠ 3) (wide : 0x67 ∉ e.prefixes) :
    ∃ acc, yyGetMemoryAccess m regs out = some acc ∧
      acc.dataAddr 0 = operandAddress m regs e.rex (e.tail regs.ip) +
        (DecodeCache.lowBytes e.opBytes
            (regs.gpr (extendReg (e.rex.getLsbD 2) (regField (m (e.tail regs.ip))))) &&&
          (~~~(BitVec.ofNat 32 e.opBytes * 8 - 1)).setWidth 64) / 8 := by
  have alone := e.bitOpAlone (m (e.tail regs.ip))
  have apart := e.operandsApart (m (e.tail regs.ip))
  obtain ⟨modRM, -, -, -, notStack, -⟩ := alone bitOp
  obtain ⟨segSet, seg, found⟩ := yyGetMemoryAccess_reported held (e.isOpcode_of_modRM modRM)
  have carried := DecodeCache.carries_address m regs (.afterLookup m regs e segSet seg)
  have entry : _ = e.entry (m (e.tail regs.ip)) := carried.d
  have file : _ = regs.gpr := carried.regs
  have opBytes : _ = if (e.entry (m (e.tail regs.ip))).has Op.stack then 8 else e.opBytes :=
    carried.opBytes
  obtain ⟨three, -, number⟩ := address_fields segSet seg modRM
  have ea := address_operand segSet seg modRM memory wide
  have notReg := mt three.mp memory
  rw [notStack, if_neg Bool.false_ne_true] at opBytes
  rw [← entry] at bitOp alone apart
  refine ⟨_, found out, ?_⟩
  rw [DecodeCache.reported_bitOp bitOp alone apart notReg, Access.fill_dataAddr,
    Flags.examined_addr]
  refine (DecodeCache.bitTarget_eq bitOp alone).trans ?_
  rw [ea, number, opBytes, file]

/-- The address of a bit operation is that of the operand with the bit exactly when the offset, a
signed number of the operand size, is not negative and below 2 ^ 32. -/
theorem bit_string_iff (m m' : Memory) (regs : PtRegs) (out : Access) (e : Encoding) (opcode : Byte)
    (held : e.HeldAt m regs.ip) (bitOp : (e.entry (m (e.tail regs.ip))).has Op.bitOp = true)
    (memory : modField (m (e.tail regs.ip)) ≠ 3) (wide : 0x67 ∉ e.prefixes)
    (twin : e.PlainTwin opcode m m' regs.ip) :
    ∃ acc plain, yyGetMemoryAccess m regs out = some acc ∧
      yyGetMemoryAccess m' regs out = some plain ∧
      (acc.dataAddr 0 =
          plain.dataAddr 0 + BitVec.ofInt 64 (bitWord e.opBytes (e.bitOffset m regs)) ↔
        0 ≤ e.bitOffset m regs ∧ e.bitOffset m regs < 2 ^ 32) := by
  obtain ⟨acc, decoded, addr⟩ := yyGetMemoryAccess_bitOp out held bitOp memory wide
  obtain ⟨plain, decoded', addr'⟩ := yyGetMemoryAccess_plainTwin out twin memory wide
  have size : e.opBytes = 2 ∨ e.opBytes = 4 ∨ e.opBytes = 8 := by
    unfold Encoding.opBytes
    split_ifs <;> simp
  refine ⟨acc, plain, decoded, decoded', ?_⟩
  rw [addr, addr', BitVec.add_right_inj]
  exact bitDistance_eq_iff size _

/-- `bts %eax, 0x10(%rbx)`. -/
def bitSet : Encoding := { prefixes := [], twobyte := true, opcode := 0xab }

/-- The memory with `bts %eax, 0x10(%rbx)`. -/
def bitSetAt : Memory := .ofBytes 0x1000 [0x0f, 0xab, 0x43, 0x10]

/-- The memory with `movzx 0x10(%rbx), %eax` in the place of the bit operation. -/
def bitSetPlainAt : Memory := .ofBytes 0x1000 [0x0f, 0xb7, 0x43, 0x10]

/-- Registers before either instruction, with a bit offset. -/
def bitSetRegs (offset : Word) : PtRegs :=
  { (default : PtRegs) with ip := 0x1000, bx := 0x2000, ax := offset }

/-- The bit with offset 100 is in the fourth operand. -/
theorem bit_string_iff_forward :
    ∃ acc plain, yyGetMemoryAccess bitSetAt (bitSetRegs 100) ⟨0, 0, fun _ => false⟩ = some acc ∧
      yyGetMemoryAccess bitSetPlainAt (bitSetRegs 100) ⟨0, 0, fun _ => false⟩ = some plain ∧
      acc.dataAddr 0 = plain.dataAddr 0 + 12 := by
  obtain ⟨acc, plain, decoded, decoded', agree⟩ := bit_string_iff bitSetAt bitSetPlainAt
    (bitSetRegs 100) ⟨0, 0, fun _ => false⟩ bitSet 0xb7 (by decide) (by decide) (by decide)
    (by decide) ⟨by decide, by decide, by decide, by decide⟩
  exact ⟨acc, plain, decoded, decoded', agree.mpr (by decide)⟩

/-- The last bit before the operand is reported 2 ^ 29 bytes above its place. -/
theorem bit_string_negative :
    bitSet.HeldAt bitSetAt (bitSetRegs 0xffffffff).ip ∧
      bitSet.bitOffset bitSetAt (bitSetRegs 0xffffffff) = -1 ∧
      (yyGetMemoryAccess bitSetAt (bitSetRegs 0xffffffff) ⟨0, 0, fun _ => false⟩).map (·.dataAddr 0)
        = some (0x2010 + 0x1ffffffc) ∧
      (yyGetMemoryAccess bitSetPlainAt (bitSetRegs 0xffffffff) ⟨0, 0, fun _ => false⟩).map
        (·.dataAddr 0) = some 0x2010 ∧
      (0x2010 : Word) + BitVec.ofInt 64 (bitWord bitSet.opBytes (-1)) = 0x2010 - 4 ∧
      (0x2010 + 0x1ffffffc : Word) ≠ 0x2010 - 4 := by
  decide

end Drddr
