import Drddr.Disasm.Tables
import Drddr.PtRegs

/-!
# The instruction decoder

`yy_get_memory_access`, one definition for each stage of the function. The stages pass the
decode cache on; a stage that the C code leaves by a jump to the end is decided in the last
definition. Values that no later stage reads are left out of the cache.
-/

namespace Drddr

open Machine

/-- The kinds of `struct operand`. -/
inductive OperandType where
  | OP_REG
  | OP_MEM
  | OP_IMM
  | OP_NONE
  deriving DecidableEq, Repr

/-- `struct operand`; a zeroed one is a register. -/
structure Operand where
  type : OperandType
  bytes : Nat
  ptr : Word
  /-- `addr.mem.ea`, a field apart from `ptr`. -/
  ea : Word
  val : Word
  deriving DecidableEq

/-- An operand of zero bytes. -/
def Operand.zero : Operand := ⟨.OP_REG, 0, 0, 0, 0⟩

/-- `struct decode_cache`. -/
structure DecodeCache where
  twobyte : Bool
  b : Byte
  opBytes : Nat
  adBytes : Nat
  rexPrefix : Byte
  src : Operand
  src2 : Operand
  dst : Operand
  hasSegOverride : Bool
  segOverride : Byte
  d : Flags
  regs : Nat → Word
  eip : Word
  modrm : Byte
  modrmMod : Byte
  modrmReg : Byte
  modrmRm : Byte
  ripRelative : Bool
  modrmEa : Word

/-- `MEM_PER_INSTR`. -/
abbrev MEM_PER_INSTR : Nat := 16

/-- Numerals name the elements of the arrays. -/
instance neZero_memPerInstr : NeZero MEM_PER_INSTR := ⟨by decide⟩

/-- The three arrays that the decoder fills. -/
structure Access where
  dataAddr : Fin MEM_PER_INSTR → Word
  /-- In bytes, a `short`. -/
  dataLength : Fin MEM_PER_INSTR → BitVec 16
  isWrite : Fin MEM_PER_INSTR → Bool

/-- A flag is set. -/
def Flags.has (d flag : Flags) : Bool := d &&& flag ≠ 0

namespace DecodeCache

variable (m : Memory) (c : DecodeCache)

/-- The zeroed cache with the sizes, the registers and the instruction pointer filled in. -/
def init (regs : PtRegs) : DecodeCache where
  twobyte := false
  b := 0
  opBytes := 4
  adBytes := 8
  rexPrefix := 0
  src := .zero
  src2 := .zero
  dst := .zero
  hasSegOverride := false
  segOverride := 0
  d := 0
  regs := regs.gpr
  eip := regs.ip
  modrm := 0
  modrmMod := 0
  modrmReg := 0
  modrmRm := 0
  ripRelative := false
  modrmEa := 0

/-- `yy_insn_fetch`: the value, zero-extended, and the cache after it. -/
def fetch (size : Nat) : Word × DecodeCache :=
  (m.read c.eip size, { c with eip := c.eip + BitVec.ofNat 64 size })

/-- `yy_insn_fetch` of one byte into a `u8`. -/
def fetchByte : Byte × DecodeCache := (m c.eip, { c with eip := c.eip + 1#64 })

/-- `c->modrm_ea += yy_insn_fetch(size, c)`. -/
def addFetch (size : Nat) : DecodeCache :=
  let (value, c) := c.fetch m size
  { c with modrmEa := c.modrmEa + value }

/-- `set_seg_override`. -/
def setSegOverride (seg : Byte) : DecodeCache :=
  { c with hasSegOverride := true, segOverride := seg }

/-- The switch in the loop over the prefixes; `none` for a byte that is not one. -/
def applyPrefix (b : Byte) : Option DecodeCache :=
  if b = 0x66 then some { c with opBytes := 4 ^^^ 6, rexPrefix := 0 }
  else if b = 0x67 then some { c with adBytes := 8 ^^^ 12, rexPrefix := 0 }
  else if b = 0x26 ∨ b = 0x2e ∨ b = 0x36 ∨ b = 0x3e then
    some { c.setSegOverride ((b >>> 3) &&& 3) with rexPrefix := 0 }
  else if b = 0x64 ∨ b = 0x65 then some { c.setSegOverride (b &&& 7) with rexPrefix := 0 }
  else if 0x40 ≤ b ∧ b ≤ 0x4f then some { c with rexPrefix := b }
  else if b = 0xf0 ∨ b = 0xf2 ∨ b = 0xf3 then some { c with rexPrefix := 0 }
  else none

/-- The loop over the prefixes, for a number of rounds; `none` if it has not ended by then. -/
def legacyPrefixes : Nat → DecodeCache → Option DecodeCache
  | 0, _ => none
  | rounds + 1, c =>
    let (b, c) := c.fetchByte m
    let c := { c with b }
    match c.applyPrefix b with
    | some c => legacyPrefixes rounds c
    | none => some c

/-- The effect of REX.W. -/
def rexW : DecodeCache :=
  if c.rexPrefix ≠ 0 ∧ c.rexPrefix &&& 8 ≠ 0 then { c with opBytes := 8 } else c

/-- The opcode bytes. -/
def opcodeBytes : DecodeCache :=
  let c := { c with d := opcodeTable c.b }
  if c.d = 0 ∧ c.b = 0x0f then
    let (b, c) := c.fetchByte m
    { c with twobyte := true, b, d := twobyteTable b }
  else c

end DecodeCache

/-- The entry that a group leads to. -/
def groupEntry (d : Flags) (modrm : Byte) : Flags :=
  if d.has Op.group then
    let i := ((d &&& Op.groupMask) <<< 3).toNat + ((modrm >>> 3) &&& 7).toNat
    if d.has Op.groupDual ∧ modrm >>> 6 = 3 then group2Table i else groupTable i
  else d

namespace DecodeCache

variable (m : Memory) (c : DecodeCache)

/-- The lookup in a group; the ModRM byte is not consumed. -/
def groupDecode : DecodeCache :=
  if c.d.has Op.group then { c with modrm := m c.eip, d := groupEntry c.d (m c.eip) } else c

/-- The operand size of a stack instruction. -/
def stackSize : DecodeCache := if c.d.has Op.stack then { c with opBytes := 8 } else c

/-- The 16-bit ModRM decode. -/
def modrm16 (regs : PtRegs) : DecodeCache :=
  let bx := regs.bx.setWidth 32
  let bp := regs.bp.setWidth 32
  let si := regs.si.setWidth 32
  let di := regs.di.setWidth 32
  let c :=
    if c.modrmMod = 0 then if c.modrmRm = 6 then c.addFetch m 2 else c
    else if c.modrmMod = 1 then c.addFetch m 1
    else if c.modrmMod = 2 then c.addFetch m 2
    else c
  let sum :=
    if c.modrmRm = 0 then bx + si
    else if c.modrmRm = 1 then bx + di
    else if c.modrmRm = 2 then bp + si
    else if c.modrmRm = 3 then bp + di
    else if c.modrmRm = 4 then si
    else if c.modrmRm = 5 then di
    else if c.modrmRm = 6 then if c.modrmMod ≠ 0 then bp else 0
    else if c.modrmRm = 7 then bx
    else 0
  let c := { c with modrmEa := c.modrmEa + sum.setWidth 64 }
  let c :=
    if c.modrmRm = 2 ∨ c.modrmRm = 3 ∨ (c.modrmRm = 6 ∧ c.modrmMod ≠ 0) then
      if c.hasSegOverride then c else c.setSegOverride 2
    else c
  { c with modrmEa := (c.modrmEa.setWidth 16).setWidth 64 }

/-- The SIB byte, with the registers named so far by REX.X and REX.B. -/
def decodeSib (indexReg baseReg : Byte) : DecodeCache :=
  let (sib, c) := c.fetchByte m
  let indexReg := indexReg ||| ((sib >>> 3) &&& 7)
  let baseReg := baseReg ||| (sib &&& 7)
  let scale := (sib >>> 6).toNat
  let c :=
    if baseReg &&& 7 = 5 ∧ c.modrmMod = 0 then c.addFetch m 4
    else { c with modrmEa := c.modrmEa + c.regs baseReg.toNat }
  if indexReg ≠ 4 then { c with modrmEa := c.modrmEa + c.regs indexReg.toNat <<< scale } else c

/-- The displacement that follows the ModRM or SIB byte. -/
def decodeDisp : DecodeCache :=
  if c.modrmMod = 0 then if c.modrmRm = 5 then c.addFetch m 4 else c
  else if c.modrmMod = 1 then c.addFetch m 1
  else if c.modrmMod = 2 then c.addFetch m 4
  else c

/-- The 32-bit and 64-bit ModRM decode. -/
def modrm64 (indexReg baseReg : Byte) : DecodeCache :=
  let c :=
    if c.modrmRm &&& 7 = 4 then c.decodeSib m indexReg baseReg
    else if c.modrmRm &&& 7 = 5 ∧ c.modrmMod = 0 then { c with ripRelative := true }
    else { c with modrmEa := c.modrmEa + c.regs c.modrmRm.toNat }
  c.decodeDisp m

/-- The ModRM byte and what follows it. -/
def decodeModRM (regs : PtRegs) : DecodeCache :=
  let rex := c.rexPrefix
  let indexReg : Byte := if rex ≠ 0 then (rex &&& 2) <<< 2 else 0
  let baseReg : Byte := if rex ≠ 0 then (rex &&& 1) <<< 3 else 0
  let c := if rex ≠ 0 then { c with modrmReg := (rex &&& 4) <<< 1, modrmRm := baseReg } else c
  let (modrm, c) := c.fetchByte m
  let c := { c with
    modrm
    modrmMod := c.modrmMod ||| (modrm &&& 0xc0) >>> 6
    modrmReg := c.modrmReg ||| (modrm &&& 0x38) >>> 3
    modrmRm := c.modrmRm ||| (modrm &&& 0x07)
    modrmEa := 0 }
  if c.modrmMod = 3 then c
  else if c.adBytes = 2 then c.modrm16 m regs
  else c.modrm64 m indexReg baseReg

/-- An absolute address in the instruction. -/
def decodeMemAbs : DecodeCache :=
  if c.adBytes = 2 ∨ c.adBytes = 4 ∨ c.adBytes = 8 then
    let (value, c) := c.fetch m c.adBytes
    { c with modrmEa := value }
  else c

end DecodeCache

/-- `yy_seg_base`. -/
def yySegBase (_segOverride : Byte) : Word := 0

namespace DecodeCache

variable (m : Memory) (c : DecodeCache)

/-- The segment base, the truncation and the instruction pointer. -/
def finishEa : DecodeCache :=
  let c := if c.hasSegOverride then c else c.setSegOverride 3
  let c :=
    if ¬(c.twobyte = false ∧ c.b = 0x8d) ∧ c.hasSegOverride then
      { c with modrmEa := c.modrmEa + yySegBase c.segOverride }
    else c
  let c := if c.adBytes ≠ 8 then { c with modrmEa := (c.modrmEa.setWidth 32).setWidth 64 } else c
  if c.ripRelative then { c with modrmEa := c.modrmEa + c.eip } else c

/-- `(c->d & ByteOp) ? 1 : c->op_bytes`. -/
def operandBytes : Nat := if c.d.has Op.byteOp then 1 else c.opBytes

/-- `register_address`, by way of `address_mask` and `ad_mask`. -/
def registerAddress (reg : Word) : Word :=
  if c.adBytes = 8 then reg else reg &&& ((1#64 <<< (c.adBytes <<< 3)) - 1)

/-- The low bytes of a register, as `fetch_register_operand` reads them. -/
def lowBytes (bytes : Nat) (value : Word) : Word :=
  if bytes = 1 then (value.setWidth 8).setWidth 64
  else if bytes = 2 then (value.setWidth 16).setWidth 64
  else if bytes = 4 then (value.setWidth 32).setWidth 64
  else value

/-- `decode_register_operand`. -/
def decodeRegisterOperand (op : Operand) (inhibitBytereg : Bool) : Operand :=
  let reg : Byte :=
    if c.d.has Op.modRM then c.modrmReg else (c.b &&& 7) ||| ((c.rexPrefix &&& 1) <<< 3)
  if c.d.has Op.byteOp ∧ inhibitBytereg = false then
    -- Without REX, byte registers 4 to 7 are the second bytes of registers 0 to 3.
    let value :=
      if c.rexPrefix = 0 ∧ 4 ≤ reg ∧ reg < 8 then c.regs (reg &&& 3).toNat >>> 8
      else c.regs reg.toNat
    { op with type := .OP_REG, bytes := 1, val := lowBytes 1 value }
  else
    { op with type := .OP_REG, bytes := c.opBytes, val := lowBytes c.opBytes (c.regs reg.toNat) }

/-- The source operand in memory; with a register operand it is a register. -/
def srcMemCommon (src : Operand) : Operand :=
  if c.d.has Op.modRM ∧ c.modrmMod = 3 then { src with type := .OP_REG }
  else { src with type := .OP_MEM, ptr := c.modrmEa, val := 0 }

/-- The source operand, and the instruction pointer after it. -/
def srcOperand : Operand × Word :=
  let kind := c.d &&& Op.srcMask
  if kind = Op.srcReg then (c.decodeRegisterOperand c.src false, c.eip)
  else if kind = Op.srcMem16 then (c.srcMemCommon { c.src with bytes := 2 }, c.eip)
  else if kind = Op.srcMem32 then (c.srcMemCommon { c.src with bytes := 4 }, c.eip)
  else if kind = Op.srcMem then
    let src := { c.src with bytes := c.operandBytes }
    -- The address of invlpg is not fetched.
    if c.twobyte ∧ c.b = 0x01 ∧ c.modrmReg = 7 then (src, c.eip) else (c.srcMemCommon src, c.eip)
  else if kind = Op.srcImm ∨ kind = Op.srcImmU then
    let bytes := if c.operandBytes = 8 then 4 else c.operandBytes
    let (value, next) := c.fetch m bytes
    ({ c.src with type := .OP_IMM, bytes, ptr := c.eip, val := value }, next.eip)
  else if kind = Op.srcImmByte ∨ kind = Op.srcImmUByte then
    let (value, next) := c.fetch m 1
    ({ c.src with type := .OP_IMM, bytes := 1, ptr := c.eip, val := value }, next.eip)
  else if kind = Op.srcOne then ({ c.src with bytes := 1, val := 1 }, c.eip)
  else if kind = Op.srcSI then
    ({ c.src with
      type := .OP_MEM, bytes := c.operandBytes, ea := c.registerAddress (c.regs 6), val := 0 },
      c.eip)
  else (c.src, c.eip)

/-- The second source operand, and the instruction pointer after it. -/
def src2Operand : Operand × Word :=
  let kind := c.d &&& Op.src2Mask
  if kind = Op.src2CL then ({ c.src2 with bytes := 1, val := c.regs 1 &&& 8 }, c.eip)
  else if kind = Op.src2ImmByte then
    let (value, next) := c.fetch m 1
    ({ c.src2 with type := .OP_IMM, bytes := 1, ptr := c.eip, val := value }, next.eip)
  else if kind = Op.src2Imm16 then
    let (value, next) := c.fetch m 2
    ({ c.src2 with type := .OP_IMM, bytes := 2, ptr := c.eip, val := value }, next.eip)
  else if kind = Op.src2One then ({ c.src2 with bytes := 1, val := 1 }, c.eip)
  else if kind = Op.src2Mem16 then
    ({ c.src2 with
      type := .OP_MEM, bytes := 2, ptr := c.modrmEa + BitVec.ofNat 64 c.src.bytes, val := 0 },
      c.eip)
  else (c.src2, c.eip)

/-- The destination of a bit operation. The mask is an `unsigned int`, so it is widened
without its upper half. -/
def bitAddress (bytes : Nat) : Word :=
  let mask : BitVec 32 := ~~~(BitVec.ofNat 32 bytes * 8 - 1)
  c.modrmEa + (c.src.val &&& mask.setWidth 64) / 8

/-- The destination operand. -/
def dstOperand : Operand :=
  let kind := c.d &&& Op.dstMask
  if kind = Op.dstReg then
    let inhibitBytereg := c.twobyte && (decide (c.b = 0xb6) || decide (c.b = 0xb7))
    c.decodeRegisterOperand c.dst inhibitBytereg
  else if kind = Op.dstMem ∨ kind = Op.dstMem64 then
    if c.d.has Op.modRM ∧ c.modrmMod = 3 then
      { c.dst with type := .OP_REG, bytes := c.operandBytes }
    else
      let bytes := if kind = Op.dstMem64 then 8 else c.operandBytes
      let ptr := if c.d.has Op.bitOp then c.bitAddress bytes else c.modrmEa
      { c.dst with type := .OP_MEM, bytes, ptr, val := 0 }
  else if kind = Op.dstAcc then
    { c.dst with
      type := .OP_REG, bytes := c.operandBytes, val := lowBytes c.operandBytes (c.regs 0) }
  else if kind = Op.dstDI then
    { c.dst with
      type := .OP_MEM, bytes := c.operandBytes, ea := c.registerAddress (c.regs 7), val := 0 }
  else c.dst

end DecodeCache

namespace Access

variable (out : Access)

/-- Fill the first element of each array. -/
def report (addr : Word) (length : BitVec 16) (write : Bool) : Access where
  dataAddr := Function.update out.dataAddr 0 addr
  dataLength := Function.update out.dataLength 0 length
  isWrite := Function.update out.isWrite 0 write

/-- The operand that is reported, if any. -/
def reportOperand (c : DecodeCache) : Access :=
  if c.src.type = .OP_MEM then out.report c.src.ptr (BitVec.ofNat 16 c.src.bytes) false
  else if c.src2.type = .OP_MEM then out.report c.src2.ptr (BitVec.ofNat 16 c.src2.bytes) false
  else if c.dst.type = .OP_MEM then out.report c.dst.ptr (BitVec.ofNat 16 c.dst.bytes) true
  else out

/-- The access of a stack instruction takes its place. -/
def reportStack (c : DecodeCache) : Access :=
  let length := BitVec.ofNat 16 c.src.bytes
  if c.d.has Op.stack then
    if c.d.has Op.push then out.report (c.regs 4 - length.signExtend 64) length true
    else if c.d.has Op.pop then out.report (c.regs 4) length false
    else out
  else out

/-- An operand that is only examined is not written. -/
def reportReadOnly (c : DecodeCache) : Access :=
  if out.dataLength 0 ≠ 0 ∧ c.d.has Op.readOnly then
    { out with isWrite := Function.update out.isWrite 0 false }
  else out

end Access

/-- The opcode, the group and the operand size. -/
def DecodeCache.lookup (m : Memory) (c : DecodeCache) : DecodeCache :=
  ((c.rexW.opcodeBytes m).groupDecode m)

/-- The address of the memory operand. -/
def DecodeCache.address (m : Memory) (regs : PtRegs) (c : DecodeCache) : DecodeCache :=
  let c := c.stackSize
  let c :=
    if c.d.has Op.modRM then c.decodeModRM m regs
    else if c.d.has Op.memAbs then c.decodeMemAbs m
    else c
  c.finishEa

/-- The three operands. -/
def DecodeCache.operands (m : Memory) (c : DecodeCache) : DecodeCache :=
  let (src, eip) := c.srcOperand m
  let c := { c with src, eip }
  let (src2, eip) := c.src2Operand m
  let c := { c with src2, eip }
  { c with dst := c.dstOperand }

/-- The result; implicit operands are not decoded. -/
def DecodeCache.result (m : Memory) (c : DecodeCache) (out : Access) : Access :=
  if c.d &&& Op.dstMask = Op.implicitOps then out
  else
    let c := c.operands m
    ((out.reportOperand c).reportStack c).reportReadOnly c

/-- `yy_get_memory_access`: what the arrays hold afterwards. There is no result when every
byte of the address space is a prefix, since the loop over the prefixes does not end. -/
def yyGetMemoryAccess (m : Memory) (regs : PtRegs) (out : Access) : Option Access :=
  let out := { out with dataLength := fun _ => 0 }
  (DecodeCache.legacyPrefixes m (2 ^ 64) (.init regs)).map fun c =>
    let c := c.lookup m
    if c.d = Op.known ∨ c.d = 0 then out
    else (c.address m regs).result m out

/-- `get_data_info`: the first length becomes one in bits. -/
def getDataInfo (m : Memory) (regs : PtRegs) (out : Access) : Option Access :=
  (yyGetMemoryAccess m regs out).map fun acc =>
    { acc with dataLength := Function.update acc.dataLength 0 (acc.dataLength 0 * 8) }

end Drddr
