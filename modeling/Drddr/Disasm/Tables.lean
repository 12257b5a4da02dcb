import Drddr.Machine.Memory

/-!
# The decoder's tables

The flag words of `disassem.c` and its four tables. The flags are C `int` constants widened
to 64 bits, so a constant that reaches bit 31 is sign-extended: the mask of the second source
operand, and the two kinds of it above that bit, cover all the upper bits as well.
-/

namespace Drddr

open Machine

/-- What the tables say of an instruction. -/
abbrev Flags := BitVec 64

/-- An `int` constant in a 64-bit flag word. -/
def intFlag (value : BitVec 32) : Flags := value.signExtend 64

namespace Op

/-! ## Flags -/

/-- `ByteOp`: eight-bit operands. -/
def byteOp : Flags := intFlag (1#32 <<< 0)

/-- `ImplicitOps`: the operands are implicit in the opcode. -/
def implicitOps : Flags := intFlag (1#32 <<< 1)

/-- `DstReg`: the destination is a register. -/
def dstReg : Flags := intFlag (2#32 <<< 1)

/-- `DstMem`: the destination is in memory. -/
def dstMem : Flags := intFlag (3#32 <<< 1)

/-- `DstAcc`: the destination is the accumulator. -/
def dstAcc : Flags := intFlag (4#32 <<< 1)

/-- `DstDI`: the destination is at the destination index. -/
def dstDI : Flags := intFlag (5#32 <<< 1)

/-- `DstMem64`: the destination is eight bytes of memory. -/
def dstMem64 : Flags := intFlag (6#32 <<< 1)

/-- `DstMask`. -/
def dstMask : Flags := intFlag (7#32 <<< 1)

/-- `SrcNone`: no source. -/
def srcNone : Flags := intFlag (0#32 <<< 4)

/-- `SrcImplicit`: the source is implicit in the opcode. -/
def srcImplicit : Flags := intFlag (0#32 <<< 4)

/-- `SrcReg`: the source is a register. -/
def srcReg : Flags := intFlag (1#32 <<< 4)

/-- `SrcMem`: the source is in memory. -/
def srcMem : Flags := intFlag (2#32 <<< 4)

/-- `SrcMem16`: the source is two bytes of memory. -/
def srcMem16 : Flags := intFlag (3#32 <<< 4)

/-- `SrcMem32`: the source is four bytes of memory. -/
def srcMem32 : Flags := intFlag (4#32 <<< 4)

/-- `SrcImm`: the source is an immediate. -/
def srcImm : Flags := intFlag (5#32 <<< 4)

/-- `SrcImmByte`: the source is a one-byte immediate. -/
def srcImmByte : Flags := intFlag (6#32 <<< 4)

/-- `SrcOne`: the source is an implied one. -/
def srcOne : Flags := intFlag (7#32 <<< 4)

/-- `SrcImmUByte`: the source is an unsigned one-byte immediate. -/
def srcImmUByte : Flags := intFlag (8#32 <<< 4)

/-- `SrcImmU`: the source is an unsigned immediate. -/
def srcImmU : Flags := intFlag (9#32 <<< 4)

/-- `SrcSI`: the source is at the source index. -/
def srcSI : Flags := intFlag (0xa#32 <<< 4)

/-- `SrcMask`. -/
def srcMask : Flags := intFlag (0xf#32 <<< 4)

/-- `ModRM`: a ModRM byte follows. -/
def modRM : Flags := intFlag (1#32 <<< 8)

/-- `Mov`: the destination is only written. -/
def mov : Flags := intFlag (1#32 <<< 9)

/-- `BitOp`: the source is a bit offset into the destination. -/
def bitOp : Flags := intFlag (1#32 <<< 10)

/-- `MemAbs`: the memory operand is an absolute address. -/
def memAbs : Flags := intFlag (1#32 <<< 11)

/-- `String`: a string instruction. -/
def string : Flags := intFlag (1#32 <<< 12)

/-- `Stack`: a stack instruction. -/
def stack : Flags := intFlag (1#32 <<< 13)

/-- `Group`: the ModRM byte extends the opcode. -/
def group : Flags := intFlag (1#32 <<< 14)

/-- `GroupDual`: register operands have entries of their own. -/
def groupDual : Flags := intFlag (1#32 <<< 15)

/-- `GroupMask`. -/
def groupMask : Flags := intFlag 0xff

/-- `Lock`: a lock prefix is allowed. -/
def lock : Flags := intFlag (1#32 <<< 26)

/-- `Priv`: the instruction is privileged. -/
def priv : Flags := intFlag (1#32 <<< 27)

/-- `No64`: the instruction is invalid in 64-bit mode. -/
def no64 : Flags := intFlag (1#32 <<< 28)

/-- `Src2CL`: the second source is a register. -/
def src2CL : Flags := intFlag (1#32 <<< 29)

/-- `Src2ImmByte`: the second source is a one-byte immediate. -/
def src2ImmByte : Flags := intFlag (2#32 <<< 29)

/-- `Src2One`: the second source is an implied one. -/
def src2One : Flags := intFlag (3#32 <<< 29)

/-- `Src2Imm16`: the second source is a two-byte immediate. -/
def src2Imm16 : Flags := intFlag (4#32 <<< 29)

/-- `Src2Mem16`: the second source follows the first one in memory. -/
def src2Mem16 : Flags := intFlag (5#32 <<< 29)

/-- `Src2Mask`. -/
def src2Mask : Flags := intFlag (7#32 <<< 29)

/-- `ReadOnly`: the destination is only examined. -/
def readOnly : Flags := 1#64 <<< 32

/-- `Push`. -/
def push : Flags := 1#64 <<< 33

/-- `Pop`. -/
def pop : Flags := 1#64 <<< 34

/-- `Known`: known to access no memory. -/
def known : Flags := 1#64 <<< 63

/-! ## Groups -/

/-- `Group1_80`. -/
def group1_80 : Flags := 0

/-- `Group1_81`. -/
def group1_81 : Flags := 1

/-- `Group1_82`. -/
def group1_82 : Flags := 2

/-- `Group1_83`. -/
def group1_83 : Flags := 3

/-- `Group1A`. -/
def group1A : Flags := 4

/-- `Group3_Byte`. -/
def group3_Byte : Flags := 5

/-- `Group3`. -/
def group3 : Flags := 6

/-- `Group4`. -/
def group4 : Flags := 7

/-- `Group5`. -/
def group5 : Flags := 8

/-- `Group7`. -/
def group7 : Flags := 9

/-- `Group8`. -/
def group8 : Flags := 10

/-- `Group9`. -/
def group9 : Flags := 11

/-! ## Tables -/

/-- `opcode_table`. -/
def opcodeEntries : List Flags :=
  [
    -- 0x00 - 0x07
    byteOp ||| dstMem ||| srcReg ||| modRM ||| lock, dstMem ||| srcReg ||| modRM ||| lock,
    byteOp ||| dstReg ||| srcMem ||| modRM, dstReg ||| srcMem ||| modRM,
    byteOp ||| dstAcc ||| srcImm, dstAcc ||| srcImm, implicitOps ||| stack ||| no64 ||| push,
    implicitOps ||| stack ||| no64 ||| pop,
    -- 0x08 - 0x0F
    byteOp ||| dstMem ||| srcReg ||| modRM ||| lock, dstMem ||| srcReg ||| modRM ||| lock,
    byteOp ||| dstReg ||| srcMem ||| modRM, dstReg ||| srcMem ||| modRM,
    byteOp ||| dstAcc ||| srcImm, dstAcc ||| srcImm, implicitOps ||| stack ||| no64 ||| push, 0,
    -- 0x10 - 0x17
    byteOp ||| dstMem ||| srcReg ||| modRM ||| lock, dstMem ||| srcReg ||| modRM ||| lock,
    byteOp ||| dstReg ||| srcMem ||| modRM, dstReg ||| srcMem ||| modRM,
    byteOp ||| dstAcc ||| srcImm, dstAcc ||| srcImm, implicitOps ||| stack ||| no64 ||| push,
    implicitOps ||| stack ||| no64 ||| pop,
    -- 0x18 - 0x1F
    byteOp ||| dstMem ||| srcReg ||| modRM ||| lock, dstMem ||| srcReg ||| modRM ||| lock,
    byteOp ||| dstReg ||| srcMem ||| modRM, dstReg ||| srcMem ||| modRM,
    byteOp ||| dstAcc ||| srcImm, dstAcc ||| srcImm, implicitOps ||| stack ||| no64 ||| push,
    implicitOps ||| stack ||| no64 ||| pop,
    -- 0x20 - 0x27
    byteOp ||| dstMem ||| srcReg ||| modRM ||| lock, dstMem ||| srcReg ||| modRM ||| lock,
    byteOp ||| dstReg ||| srcMem ||| modRM, dstReg ||| srcMem ||| modRM, dstAcc ||| srcImmByte,
    dstAcc ||| srcImm, 0, 0,
    -- 0x28 - 0x2F
    byteOp ||| dstMem ||| srcReg ||| modRM ||| lock, dstMem ||| srcReg ||| modRM ||| lock,
    byteOp ||| dstReg ||| srcMem ||| modRM, dstReg ||| srcMem ||| modRM, 0, 0, 0, 0,
    -- 0x30 - 0x37
    byteOp ||| dstMem ||| srcReg ||| modRM ||| lock, dstMem ||| srcReg ||| modRM ||| lock,
    byteOp ||| dstReg ||| srcMem ||| modRM, dstReg ||| srcMem ||| modRM, 0, 0, 0, 0,
    -- 0x38 - 0x3F
    byteOp ||| dstMem ||| srcReg ||| modRM ||| readOnly, dstMem ||| srcReg ||| modRM ||| readOnly,
    byteOp ||| dstReg ||| srcMem ||| modRM, dstReg ||| srcMem ||| modRM,
    byteOp ||| dstAcc ||| srcImm, dstAcc ||| srcImm, 0, 0,
    -- 0x40 - 0x47
    dstReg, dstReg, dstReg, dstReg, dstReg, dstReg, dstReg, dstReg,
    -- 0x48 - 0x4F
    dstReg, dstReg, dstReg, dstReg, dstReg, dstReg, dstReg, dstReg,
    -- 0x50 - 0x57
    srcReg ||| stack ||| push, srcReg ||| stack ||| push, srcReg ||| stack ||| push,
    srcReg ||| stack ||| push, srcReg ||| stack ||| push, srcReg ||| stack ||| push,
    srcReg ||| stack ||| push, srcReg ||| stack ||| push,
    -- 0x58 - 0x5F
    dstReg ||| stack ||| pop, dstReg ||| stack ||| pop, dstReg ||| stack ||| pop,
    dstReg ||| stack ||| pop, dstReg ||| stack ||| pop, dstReg ||| stack ||| pop,
    dstReg ||| stack ||| pop, dstReg ||| stack ||| pop,
    -- 0x60 - 0x67
    implicitOps ||| stack ||| no64, implicitOps ||| stack ||| no64, 0,
    dstReg ||| srcMem32 ||| modRM ||| mov, 0, 0, 0, 0,
    -- 0x68 - 0x6F
    srcImm ||| mov ||| stack ||| push, 0, srcImmByte ||| mov ||| stack ||| push, 0,
    dstDI ||| byteOp ||| mov ||| string, dstDI ||| mov ||| string,
    srcSI ||| byteOp ||| implicitOps ||| string, srcSI ||| implicitOps ||| string,
    -- 0x70 - 0x77
    srcImmByte, srcImmByte, srcImmByte, srcImmByte, srcImmByte, srcImmByte, srcImmByte, srcImmByte,
    -- 0x78 - 0x7F
    srcImmByte, srcImmByte, srcImmByte, srcImmByte, srcImmByte, srcImmByte, srcImmByte, srcImmByte,
    -- 0x80 - 0x87
    group ||| group1_80, group ||| group1_81, group ||| group1_82, group ||| group1_83,
    byteOp ||| dstMem ||| srcReg ||| modRM ||| readOnly, dstMem ||| srcReg ||| modRM ||| readOnly,
    byteOp ||| dstMem ||| srcReg ||| modRM ||| lock, dstMem ||| srcReg ||| modRM ||| lock,
    -- 0x88 - 0x8F
    byteOp ||| dstMem ||| srcReg ||| modRM ||| mov, dstMem ||| srcReg ||| modRM ||| mov,
    byteOp ||| dstReg ||| srcMem ||| modRM ||| mov, dstReg ||| srcMem ||| modRM ||| mov,
    dstMem ||| srcReg ||| modRM ||| mov, modRM ||| dstReg, dstReg ||| srcMem ||| modRM ||| mov,
    group ||| group1A,
    -- 0x90 - 0x97
    dstReg, dstReg, dstReg, dstReg, dstReg, dstReg, dstReg, dstReg,
    -- 0x98 - 0x9F
    known, known, srcImm ||| src2Imm16 ||| no64, 0, implicitOps ||| stack, implicitOps ||| stack,
    0, 0,
    -- 0xA0 - 0xA7
    byteOp ||| dstReg ||| srcMem ||| mov ||| memAbs, dstReg ||| srcMem ||| mov ||| memAbs,
    byteOp ||| dstMem ||| srcReg ||| mov ||| memAbs, dstMem ||| srcReg ||| mov ||| memAbs,
    byteOp ||| srcSI ||| dstDI ||| mov ||| string, srcSI ||| dstDI ||| mov ||| string,
    byteOp ||| srcSI ||| dstDI ||| string, srcSI ||| dstDI ||| string,
    -- 0xA8 - 0xAF
    0, 0, byteOp ||| dstDI ||| mov ||| string, dstDI ||| mov ||| string,
    byteOp ||| srcSI ||| dstAcc ||| mov ||| string, srcSI ||| dstAcc ||| mov ||| string,
    byteOp ||| dstDI ||| string, dstDI ||| string,
    -- 0xB0 - 0xB7
    byteOp ||| dstReg ||| srcImm ||| mov, byteOp ||| dstReg ||| srcImm ||| mov,
    byteOp ||| dstReg ||| srcImm ||| mov, byteOp ||| dstReg ||| srcImm ||| mov,
    byteOp ||| dstReg ||| srcImm ||| mov, byteOp ||| dstReg ||| srcImm ||| mov,
    byteOp ||| dstReg ||| srcImm ||| mov, byteOp ||| dstReg ||| srcImm ||| mov,
    -- 0xB8 - 0xBF
    dstReg ||| srcImm ||| mov, dstReg ||| srcImm ||| mov, dstReg ||| srcImm ||| mov,
    dstReg ||| srcImm ||| mov, dstReg ||| srcImm ||| mov, dstReg ||| srcImm ||| mov,
    dstReg ||| srcImm ||| mov, dstReg ||| srcImm ||| mov,
    -- 0xC0 - 0xC7
    byteOp ||| dstMem ||| srcImm ||| modRM, dstMem ||| srcImmByte ||| modRM, 0,
    implicitOps ||| stack, 0, 0, byteOp ||| dstMem ||| srcImm ||| modRM ||| mov,
    dstMem ||| srcImm ||| modRM ||| mov,
    -- 0xC8 - 0xCF
    0, 0, 0, implicitOps ||| stack, implicitOps, srcImmByte, implicitOps ||| no64, implicitOps,
    -- 0xD0 - 0xD7
    byteOp ||| dstMem ||| srcImplicit ||| modRM, dstMem ||| srcImplicit ||| modRM,
    byteOp ||| dstMem ||| srcImplicit ||| modRM, dstMem ||| srcImplicit ||| modRM, 0, 0, 0, 0,
    -- 0xD8 - 0xDF
    0, 0, 0, 0, 0, 0, 0, 0,
    -- 0xE0 - 0xE7
    0, 0, 0, 0, byteOp ||| srcImmUByte ||| dstAcc, srcImmUByte ||| dstAcc,
    byteOp ||| srcImmUByte ||| dstAcc, srcImmUByte ||| dstAcc,
    -- 0xE8 - 0xEF
    srcImm ||| stack, srcImm ||| implicitOps, srcImmU ||| src2Imm16 ||| no64,
    srcImmByte ||| implicitOps, srcNone ||| byteOp ||| dstAcc, srcNone ||| dstAcc,
    srcNone ||| byteOp ||| dstAcc, srcNone ||| dstAcc,
    -- 0xF0 - 0xF7
    0, 0, 0, 0, implicitOps ||| priv, implicitOps, group ||| group3_Byte, group ||| group3,
    -- 0xF8 - 0xFF
    implicitOps, 0, implicitOps, implicitOps, implicitOps, implicitOps, group ||| group4,
    group ||| group5]

/-- `twobyte_table`. -/
def twobyteEntries : List Flags :=
  [
    -- 0x00 - 0x0F
    0, group ||| groupDual ||| group7, 0, 0, 0, implicitOps, implicitOps ||| priv, 0,
    implicitOps ||| priv, implicitOps ||| priv, 0, 0, 0, implicitOps ||| modRM, 0, 0,
    -- 0x10 - 0x1F
    0, 0, 0, 0, 0, 0, 0, 0, implicitOps ||| modRM, 0, 0, 0, 0, 0, 0, 0,
    -- 0x20 - 0x2F
    modRM ||| implicitOps ||| priv, modRM ||| priv, modRM ||| implicitOps ||| priv, modRM ||| priv,
    0, 0, 0, 0, 0, 0, 0, 0, 0, 0, 0, 0,
    -- 0x30 - 0x3F
    implicitOps ||| priv, 0, implicitOps ||| priv, 0, implicitOps, implicitOps ||| priv, 0, 0, 0,
    0, 0, 0, 0, 0, 0, 0,
    -- 0x40 - 0x47
    dstReg ||| srcMem ||| modRM ||| mov, dstReg ||| srcMem ||| modRM ||| mov,
    dstReg ||| srcMem ||| modRM ||| mov, dstReg ||| srcMem ||| modRM ||| mov,
    dstReg ||| srcMem ||| modRM ||| mov, dstReg ||| srcMem ||| modRM ||| mov,
    dstReg ||| srcMem ||| modRM ||| mov, dstReg ||| srcMem ||| modRM ||| mov,
    -- 0x48 - 0x4F
    dstReg ||| srcMem ||| modRM ||| mov, dstReg ||| srcMem ||| modRM ||| mov,
    dstReg ||| srcMem ||| modRM ||| mov, dstReg ||| srcMem ||| modRM ||| mov,
    dstReg ||| srcMem ||| modRM ||| mov, dstReg ||| srcMem ||| modRM ||| mov,
    dstReg ||| srcMem ||| modRM ||| mov, dstReg ||| srcMem ||| modRM ||| mov,
    -- 0x50 - 0x5F
    0, 0, 0, 0, 0, 0, 0, 0, 0, 0, 0, 0, 0, 0, 0, 0,
    -- 0x60 - 0x6F
    0, 0, 0, 0, 0, 0, 0, 0, 0, 0, 0, 0, 0, 0, 0, 0,
    -- 0x70 - 0x7F
    0, 0, 0, 0, 0, 0, 0, 0, 0, 0, 0, 0, 0, 0, 0, 0,
    -- 0x80 - 0x8F
    srcImm, srcImm, srcImm, srcImm, srcImm, srcImm, srcImm, srcImm, srcImm, srcImm, srcImm, srcImm,
    srcImm, srcImm, srcImm, srcImm,
    -- 0x90 - 0x9F
    0, 0, 0, 0, 0, 0, 0, 0, 0, 0, 0, 0, 0, 0, 0, 0,
    -- 0xA0 - 0xA7
    implicitOps ||| stack ||| push, implicitOps ||| stack ||| pop, 0,
    dstMem ||| srcReg ||| modRM ||| bitOp, dstMem ||| srcReg ||| src2ImmByte ||| modRM,
    dstMem ||| srcReg ||| src2CL ||| modRM, 0, 0,
    -- 0xA8 - 0xAF
    implicitOps ||| stack ||| push, implicitOps ||| stack ||| pop, 0,
    dstMem ||| srcReg ||| modRM ||| bitOp ||| lock, dstMem ||| srcReg ||| src2ImmByte ||| modRM,
    dstMem ||| srcReg ||| src2CL ||| modRM, modRM, 0,
    -- 0xB0 - 0xB7
    byteOp ||| dstMem ||| srcReg ||| modRM ||| lock, dstMem ||| srcReg ||| modRM ||| lock, 0,
    dstMem ||| srcReg ||| modRM ||| bitOp ||| lock, 0, 0,
    byteOp ||| dstReg ||| srcMem ||| modRM ||| mov, dstReg ||| srcMem16 ||| modRM ||| mov,
    -- 0xB8 - 0xBF
    0, 0, group ||| group8, dstMem ||| srcReg ||| modRM ||| bitOp ||| lock, 0, 0,
    byteOp ||| dstReg ||| srcMem ||| modRM ||| mov, dstReg ||| srcMem16 ||| modRM ||| mov,
    -- 0xC0 - 0xCF
    0, 0, 0, dstMem ||| srcReg ||| modRM ||| mov, 0, 0, 0, group ||| groupDual ||| group9, 0, 0, 0,
    0, 0, 0, 0, 0,
    -- 0xD0 - 0xDF
    0, 0, 0, 0, 0, 0, 0, 0, 0, 0, 0, 0, 0, 0, 0, 0,
    -- 0xE0 - 0xEF
    0, 0, 0, 0, 0, 0, 0, 0, 0, 0, 0, 0, 0, 0, 0, 0,
    -- 0xF0 - 0xFF
    0, 0, 0, 0, 0, 0, 0, 0, 0, 0, 0, 0, 0, 0, 0, 0]

/-- `group_table`, eight entries for each group. -/
def groupEntries : List Flags :=
  [
    -- Group1_80
    byteOp ||| dstMem ||| srcImm ||| modRM ||| lock,
    byteOp ||| dstMem ||| srcImm ||| modRM ||| lock,
    byteOp ||| dstMem ||| srcImm ||| modRM ||| lock,
    byteOp ||| dstMem ||| srcImm ||| modRM ||| lock,
    byteOp ||| dstMem ||| srcImm ||| modRM ||| lock,
    byteOp ||| dstMem ||| srcImm ||| modRM ||| lock,
    byteOp ||| dstMem ||| srcImm ||| modRM ||| lock,
    byteOp ||| dstMem ||| srcImm ||| modRM ||| readOnly,
    -- Group1_81
    dstMem ||| srcImm ||| modRM ||| lock, dstMem ||| srcImm ||| modRM ||| lock,
    dstMem ||| srcImm ||| modRM ||| lock, dstMem ||| srcImm ||| modRM ||| lock,
    dstMem ||| srcImm ||| modRM ||| lock, dstMem ||| srcImm ||| modRM ||| lock,
    dstMem ||| srcImm ||| modRM ||| lock, dstMem ||| srcImm ||| modRM ||| readOnly,
    -- Group1_82
    byteOp ||| dstMem ||| srcImm ||| modRM ||| no64 ||| lock,
    byteOp ||| dstMem ||| srcImm ||| modRM ||| no64 ||| lock,
    byteOp ||| dstMem ||| srcImm ||| modRM ||| no64 ||| lock,
    byteOp ||| dstMem ||| srcImm ||| modRM ||| no64 ||| lock,
    byteOp ||| dstMem ||| srcImm ||| modRM ||| no64 ||| lock,
    byteOp ||| dstMem ||| srcImm ||| modRM ||| no64 ||| lock,
    byteOp ||| dstMem ||| srcImm ||| modRM ||| no64 ||| lock,
    byteOp ||| dstMem ||| srcImm ||| modRM ||| no64 ||| readOnly,
    -- Group1_83
    dstMem ||| srcImmByte ||| modRM ||| lock, dstMem ||| srcImmByte ||| modRM ||| lock,
    dstMem ||| srcImmByte ||| modRM ||| lock, dstMem ||| srcImmByte ||| modRM ||| lock,
    dstMem ||| srcImmByte ||| modRM ||| lock, dstMem ||| srcImmByte ||| modRM ||| lock,
    dstMem ||| srcImmByte ||| modRM ||| lock, dstMem ||| srcImmByte ||| modRM ||| readOnly,
    -- Group1A
    dstMem ||| srcNone ||| modRM ||| mov ||| stack, 0, 0, 0, 0, 0, 0, 0,
    -- Group3_Byte
    byteOp ||| srcImm ||| dstMem ||| modRM ||| readOnly, 0,
    byteOp ||| dstMem ||| srcNone ||| modRM, byteOp ||| dstMem ||| srcNone ||| modRM, 0, 0, 0, 0,
    -- Group3
    dstMem ||| srcImm ||| modRM ||| readOnly, 0, dstMem ||| srcNone ||| modRM,
    dstMem ||| srcNone ||| modRM, 0, 0, 0, 0,
    -- Group4
    byteOp ||| dstMem ||| srcNone ||| modRM ||| lock,
    byteOp ||| dstMem ||| srcNone ||| modRM ||| lock, 0, 0, 0, 0, 0, 0,
    -- Group5
    dstMem ||| srcNone ||| modRM ||| lock, dstMem ||| srcNone ||| modRM ||| lock,
    srcMem ||| modRM ||| stack, 0, srcMem ||| modRM ||| stack,
    srcMem ||| modRM ||| src2Mem16 ||| implicitOps, srcMem ||| modRM ||| stack ||| push, 0,
    -- Group7
    0, 0, modRM ||| srcMem ||| priv, modRM ||| srcMem ||| priv,
    srcNone ||| modRM ||| dstMem ||| mov, 0, srcMem16 ||| modRM ||| mov ||| priv,
    srcMem ||| modRM ||| byteOp ||| priv,
    -- Group8
    0, 0, 0, 0, dstMem ||| srcImmByte ||| modRM, dstMem ||| srcImmByte ||| modRM ||| lock,
    dstMem ||| srcImmByte ||| modRM ||| lock, dstMem ||| srcImmByte ||| modRM ||| lock,
    -- Group9
    0, dstMem64 ||| modRM ||| lock, 0, 0, 0, 0, 0, 0]

/-- `group2_table`; groups without an initializer are zero. -/
def group2Entries : List Flags :=
  [
    -- Group1_80
    0, 0, 0, 0, 0, 0, 0, 0,
    -- Group1_81
    0, 0, 0, 0, 0, 0, 0, 0,
    -- Group1_82
    0, 0, 0, 0, 0, 0, 0, 0,
    -- Group1_83
    0, 0, 0, 0, 0, 0, 0, 0,
    -- Group1A
    0, 0, 0, 0, 0, 0, 0, 0,
    -- Group3_Byte
    0, 0, 0, 0, 0, 0, 0, 0,
    -- Group3
    0, 0, 0, 0, 0, 0, 0, 0,
    -- Group4
    0, 0, 0, 0, 0, 0, 0, 0,
    -- Group5
    0, 0, 0, 0, 0, 0, 0, 0,
    -- Group7
    srcNone ||| modRM ||| priv, 0, 0, srcNone ||| modRM ||| priv,
    srcNone ||| modRM ||| dstMem ||| mov, 0, srcMem16 ||| modRM ||| mov ||| priv, 0,
    -- Group8
    0, 0, 0, 0, 0, 0, 0, 0,
    -- Group9
    0, 0, 0, 0, 0, 0, 0, 0]

end Op

/-- An entry of `opcode_table`. -/
def opcodeTable (b : Byte) : Flags := Op.opcodeEntries.getD b.toNat 0

/-- An entry of `twobyte_table`. -/
def twobyteTable (b : Byte) : Flags := Op.twobyteEntries.getD b.toNat 0

/-- An entry of `group_table`. -/
def groupTable (i : Nat) : Flags := Op.groupEntries.getD i 0

/-- An entry of `group2_table`. -/
def group2Table (i : Nat) : Flags := Op.group2Entries.getD i 0

end Drddr
