import Drddr.Disasm.Prefixes

/-!
# Moves at an absolute address

A0 to A3 move the accumulator from or to an address that stands in the instruction, in the address
size in effect.
-/

namespace Drddr

open Machine

/-- The moves from an absolute address and those to it, of a byte and of the operand size. -/
def absoluteOpcodes : List Byte := [0xa0, 0xa1, 0xa2, 0xa3]

namespace Encoding

variable (e : Encoding)

/-- A move at an absolute address. -/
def IsAbsolute : Prop := e.twobyte = false ∧ absoluteOpcodes.contains e.opcode = true

instance : Decidable e.IsAbsolute := inferInstanceAs (Decidable (_ ∧ _))

/-- The bytes that an absolute move moves. -/
def movedBytes : Nat := if e.opcode.getLsbD 0 then e.opBytes else 1

end Encoding

/-- An entry with an absolute address: the source or the destination is there, and no other operand
is in memory. -/
structure Flags.AbsoluteEntry (d : Flags) (byte write : Bool) : Prop where
  memAbs : d.has Op.memAbs = true
  noModRM : d.has Op.modRM = false
  noStack : d.has Op.stack = false
  explicit : d.Explicit
  byteOp : d.has Op.byteOp = byte
  notAfter : d &&& Op.src2Mask ≠ Op.src2Mem16
  source : d &&& Op.srcMask = if write then Op.srcReg else Op.srcMem
  destination : write = true → d &&& Op.dstMask = Op.dstMem
  notBitOp : d.has Op.bitOp = false
  notReadOnly : d.has Op.readOnly = false

instance (d : Flags) (byte write : Bool) : Decidable (d.AbsoluteEntry byte write) :=
  decidable_of_iff (d.has Op.memAbs = true ∧ d.has Op.modRM = false ∧ d.has Op.stack = false ∧
      d.Explicit ∧ d.has Op.byteOp = byte ∧ d &&& Op.src2Mask ≠ Op.src2Mem16 ∧
      (d &&& Op.srcMask = if write then Op.srcReg else Op.srcMem) ∧
      (write = true → d &&& Op.dstMask = Op.dstMem) ∧ d.has Op.bitOp = false ∧
      d.has Op.readOnly = false)
    ⟨fun ⟨memAbs, noModRM, noStack, explicit, byteOp, notAfter, source, destination, notBitOp,
        notReadOnly⟩ =>
        ⟨memAbs, noModRM, noStack, explicit, byteOp, notAfter, source, destination, notBitOp,
          notReadOnly⟩,
      fun d => ⟨d.memAbs, d.noModRM, d.noStack, d.explicit, d.byteOp, d.notAfter, d.source,
        d.destination, d.notBitOp, d.notReadOnly⟩⟩

set_option maxRecDepth 2048 in
/-- The moves have such entries: the lowest bit of the opcode tells the width, the next one the
direction. -/
theorem absoluteOpcodes_entries : ∀ b : Byte, absoluteOpcodes.contains b = true →
    (opcodeTable b).AbsoluteEntry (!b.getLsbD 0) (b.getLsbD 1) := by decide

/-- No opcode of an absolute move is a prefix, an escape or in a group. -/
theorem absoluteOpcodes_plain : ∀ b : Byte, absoluteOpcodes.contains b = true →
    isPrefix b = false ∧ b ≠ 0x0f ∧ (opcodeTable b).has Op.group = false := by decide

/-- An absolute move is reported at its address, in its direction, as long as its entry says. -/
theorem DecodeCache.reported_absolute {c : DecodeCache} {byte write : Bool}
    (absolute : c.d.AbsoluteEntry byte write) (accessed : ¬c.IsInvlpg) :
    c.reported = some ⟨c.modrmEa, if byte then 1 else c.opBytes, write⟩ := by
  have unnamed : ¬c.NamesRegister := fun names => by
    rw [NamesRegister, absolute.noModRM] at names
    exact Bool.false_ne_true names.1
  have unexamined (r : Reported) : c.d.examined r = r := by
    unfold Flags.examined
    rw [absolute.notReadOnly]
    exact if_neg fun both => Bool.false_ne_true both.2
  have source := absolute.source
  unfold reported
  rw [if_pos absolute.explicit, stackAccess_of_not_stack absolute.noStack]
  cases write with
  | false =>
    have kind : c.d &&& Op.srcMask = Op.srcMem := source
    have named : c.d.SrcModRM := by simp [Flags.SrcModRM, kind]
    have bytes : c.d.sourceBytes c.opBytes = if byte then 1 else c.opBytes := by
      simp only [Flags.sourceBytes, kind, absolute.byteOp]
      rw [if_neg (by decide), if_neg (by decide), if_neg (by decide), if_true]
    rw [sourceAccess_modRM named unnamed accessed, bytes]
    exact congrArg some (unexamined _)
  | true =>
    have kind : c.d &&& Op.srcMask = Op.srcReg := source
    have destination := absolute.destination rfl
    have other : ¬c.d.SrcModRM := by
      rw [Flags.SrcModRM, kind]
      decide
    have first : c.sourceAccess = none := by
      rw [sourceAccess, if_neg other, kind]
      exact if_neg (by decide)
    have second : c.secondAccess = none := if_neg absolute.notAfter
    have named : c.d.DstModRM := by simp [Flags.DstModRM, destination]
    have bytes : c.d.destBytes c.opBytes = if byte then 1 else c.opBytes := by
      rw [Flags.destBytes, destination, if_neg (by decide), absolute.byteOp]
    rw [first, second, destAccess, if_pos named, if_neg unnamed, absolute.notBitOp, bytes]
    exact congrArg some (unexamined _)

/-- An address that is read in the address size in effect has that size. -/
theorem Encoding.truncateAddress_read (e : Encoding) (m : Memory) (a : Word) :
    truncateAddress e.addr32 (m.read a e.adBytes) = m.read a e.adBytes := by
  unfold truncateAddress adBytes
  cases e.addr32 with
  | true => exact Memory.setWidth_read m a 4
  | false => rfl

/-- A move of the accumulator with any prefixes is reported exactly: the address is the bytes behind
the opcode, eight of them or four with the address-size prefix; the length is one byte or the
operand size; it is a read from an address or a write to one; and there is no other access. -/
theorem absolute_move_reported (m : Memory) (regs : PtRegs) (out : Access) (e : Encoding)
    (held : e.HeldAt m regs.ip) (absolute : e.IsAbsolute) :
    ∃ acc, yyGetMemoryAccess m regs out = some acc ∧
      acc.dataAddr 0 = m.read (e.tail regs.ip) (if e.addr32 then 4 else 8) ∧
      acc.dataLength 0 = BitVec.ofNat 16 e.movedBytes ∧
      acc.isWrite 0 = e.opcode.getLsbD 1 ∧ ∀ k ≠ 0, acc.dataLength k = 0 := by
  obtain ⟨single, opcode⟩ := absolute
  have plain := absoluteOpcodes_plain e.opcode opcode
  have described := absoluteOpcodes_entries e.opcode opcode
  have isOpcode : e.IsOpcode := fun _ => ⟨plain.1, plain.2.1⟩
  have same : e.entry (m (e.tail regs.ip)) = opcodeTable e.opcode := by
    rw [e.entry_of_single _ single, groupEntry_of_not_group _ plain.2.2]
  rw [← same] at described
  obtain ⟨segSet, seg, found⟩ := yyGetMemoryAccess_reported held isOpcode
  have reached := @DecodeCache.address_absolute m regs e segSet seg described.noModRM
  have opBytes : (DecodeCache.afterLookup m regs e segSet seg).stackBytes = e.opBytes := by
    unfold DecodeCache.stackBytes
    rw [if_neg]
    · rfl
    · show ¬(e.entry (m (e.tail regs.ip))).has Op.stack = true
      rw [described.noStack]
      exact Bool.false_ne_true
  have report : ((DecodeCache.afterLookup m regs e segSet seg).address m regs).reported =
      some ⟨m.read (e.tail regs.ip) e.adBytes, e.movedBytes, e.opcode.getLsbD 1⟩ := by
    rw [reached]
    simp only [opBytes, described.memAbs, if_true, e.truncateAddress_read]
    refine (DecodeCache.reported_absolute described fun is => ?_).trans ?_
    · exact absurd is.2.2 (by decide : ¬(0 : Byte) = 7)
    · unfold Encoding.movedBytes
      cases e.opcode.getLsbD 0 with
      | true => rfl
      | false => rfl
  refine ⟨_, found out, ?_, ?_, ?_, fun k other => ?_⟩
  · rw [report, Access.fill_dataAddr]
    rfl
  · rw [report, Access.fill_dataLength]
  · rw [report, Access.fill_isWrite]
  · rw [report]
    exact Function.update_of_ne other ..

/-- `movabs %rax, 0x12345678` with an address of four bytes. -/
def absoluteStore : Encoding := { prefixes := [0x67, 0x48], twobyte := false, opcode := 0xa3 }

/-- The memory with the store through an absolute address. -/
def absoluteStoreAt : Memory := .ofBytes 0x1000 [0x67, 0x48, 0xa3, 0x78, 0x56, 0x34, 0x12]

/-- The store through an absolute address is reported as a write of eight bytes there. -/
theorem absolute_move_reported_store :
    ∃ acc, yyGetMemoryAccess absoluteStoreAt { (default : PtRegs) with ip := 0x1000 }
        ⟨0, 0, fun _ => false⟩ = some acc ∧
      acc.dataAddr 0 = 0x12345678 ∧ acc.dataLength 0 = 8 ∧ acc.isWrite 0 = true := by
  obtain ⟨acc, decoded, addr, length, write, -⟩ := absolute_move_reported absoluteStoreAt
    { (default : PtRegs) with ip := 0x1000 } ⟨0, 0, fun _ => false⟩ absoluteStore (by decide)
    (by decide)
  refine ⟨acc, decoded, ?_, length, write⟩
  rw [addr]
  decide

end Drddr
