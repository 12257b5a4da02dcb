import Drddr.Disasm.Reported

/-!
# String instructions

The decoder stores the address of a string operand in one field of its descriptor and reports
another one, which no string instruction sets.
-/

namespace Drddr

open Machine

/-- INS, MOVS, CMPS, STOS, LODS and SCAS, each for bytes and for larger operands. -/
def stringOpcodes : List Byte :=
  [0x6c, 0x6d, 0xa4, 0xa5, 0xa6, 0xa7, 0xaa, 0xab, 0xac, 0xad, 0xae, 0xaf]

/-- The string opcodes that read through the source index: MOVS, CMPS and LODS. -/
def sourceOpcodes : List Byte := [0xa4, 0xa5, 0xa6, 0xa7, 0xac, 0xad]

namespace Encoding

variable (e : Encoding)

/-- A string instruction with decoded operands. -/
def IsString : Prop := e.twobyte = false ∧ stringOpcodes.contains e.opcode = true

instance : Decidable e.IsString := inferInstanceAs (Decidable (_ ∧ _))

/-- The address of the access of a string instruction: at the source index if it reads through that,
and at the destination index otherwise, in the address size in effect. -/
def stringAddress (regs : PtRegs) : Word :=
  truncateAddress e.addr32 (if sourceOpcodes.contains e.opcode then regs.si else regs.di)

end Encoding

/-- An entry with an operand at a string register. -/
structure Flags.StringEntry (d : Flags) : Prop where
  explicit : d.Explicit
  operand : d &&& Op.srcMask = Op.srcSI ∨ d &&& Op.dstMask = Op.dstDI

instance (d : Flags) : Decidable d.StringEntry :=
  decidable_of_iff (d.Explicit ∧ (d &&& Op.srcMask = Op.srcSI ∨ d &&& Op.dstMask = Op.dstDI))
    ⟨fun both => ⟨both.1, both.2⟩, fun entry => ⟨entry.explicit, entry.operand⟩⟩

/-- A string entry that has no operand in memory but its string. -/
def Flags.StringAlone (d : Flags) : Prop :=
  d.StringEntry → d.has Op.stack = false ∧ ¬d.SrcModRM ∧ ¬d.DstModRM ∧
    d &&& Op.src2Mask ≠ Op.src2Mem16

instance (d : Flags) : Decidable d.StringAlone := inferInstanceAs (Decidable (_ → _))

set_option maxRecDepth 2048 in
/-- In the tables, a string entry has no operand in memory but its string. -/
theorem Encoding.stringAlone (e : Encoding) (modrm : Byte) : (e.entry modrm).StringAlone :=
  of_decide_eq_true <| entry_forall (p := fun d => decide d.StringAlone) (by decide) (by decide)
    (by decide) (by decide) (by decide) e modrm

set_option maxRecDepth 2048 in
/-- The string instructions are the opcodes with string entries. -/
theorem stringOpcodes_entries : ∀ b : Byte,
    stringOpcodes.contains b = true ↔ (opcodeTable b).StringEntry := by decide

/-- No opcode of a string instruction is a prefix, an escape or in a group. -/
theorem stringOpcodes_plain : ∀ b : Byte, stringOpcodes.contains b = true →
    isPrefix b = false ∧ b ≠ 0x0f ∧ (opcodeTable b).has Op.group = false := by decide

/-- The access to a string operand is reported with address zero, and as a read if there is a
source. -/
theorem DecodeCache.reported_string {c : DecodeCache} (string : c.d.StringEntry)
    (alone : c.d.StringAlone) :
    c.reported = some (c.d.examined
      ⟨0, c.operandBytes, !decide (c.d &&& Op.srcMask = Op.srcSI)⟩) := by
  obtain ⟨noStack, notSrc, notDst, notAfter⟩ := alone string
  unfold reported
  rw [if_pos string.explicit, stackAccess_of_not_stack noStack]
  by_cases source : c.d &&& Op.srcMask = Op.srcSI
  · have bytes : c.d.sourceBytes c.opBytes = c.operandBytes := by
      simp only [Flags.sourceBytes, source]
      rw [if_neg (by decide), if_neg (by decide), if_neg (by decide), if_neg (by decide),
        if_neg (by decide), if_neg (by decide), if_neg (by decide), if_true]
      rfl
    have filled : c.sourceAccess = some ⟨0, c.operandBytes, false⟩ := by
      rw [sourceAccess, if_neg notSrc, if_pos source, bytes]
    rw [filled, decide_eq_true source]
    rfl
  · have destination := string.operand.resolve_left source
    have bytes : c.d.destBytes c.opBytes = c.operandBytes := by
      rw [Flags.destBytes, destination, if_neg (by decide)]
      rfl
    have first : c.sourceAccess = none := by
      rw [sourceAccess, if_neg notSrc, if_neg source]
    have second : c.secondAccess = none := if_neg notAfter
    have filled : c.destAccess = some ⟨0, c.operandBytes, true⟩ := by
      rw [destAccess, if_neg notDst, if_pos destination, bytes]
    rw [first, second, filled, decide_eq_false source]
    rfl

/-- A string instruction is reported, and at its address exactly when that address is zero. -/
theorem string_address_iff (m : Memory) (regs : PtRegs) (out : Access) (e : Encoding)
    (held : e.HeldAt m regs.ip) (string : e.IsString) :
    ∃ acc, yyGetMemoryAccess m regs out = some acc ∧ acc.dataLength 0 ≠ 0 ∧
      (acc.dataAddr 0 = e.stringAddress regs ↔ e.stringAddress regs = 0) := by
  obtain ⟨single, opcode⟩ := string
  have plain := stringOpcodes_plain e.opcode opcode
  have isOpcode : e.IsOpcode := fun _ => ⟨plain.1, plain.2.1⟩
  obtain ⟨segSet, seg, found⟩ := yyGetMemoryAccess_reported held isOpcode
  have carried := DecodeCache.carries_address m regs (.afterLookup m regs e segSet seg)
  have sized := DecodeCache.address_sized m regs e segSet seg
  generalize (DecodeCache.afterLookup m regs e segSet seg).address m regs = c
    at found carried sized
  have entry : c.d = opcodeTable e.opcode := by
    have same : e.entry (m (e.tail regs.ip)) = opcodeTable e.opcode := by
      rw [e.entry_of_single _ single, groupEntry_of_not_group _ plain.2.2]
    exact carried.d.trans same
  have described : c.d.StringEntry := by
    rw [entry]
    exact (stringOpcodes_entries e.opcode).mp opcode
  have alone : c.d.StringAlone := by
    rw [carried.d]
    exact e.stringAlone _
  refine ⟨_, found out, ?_, ?_⟩
  · rw [DecodeCache.reported_string described alone, Access.fill_dataLength, Flags.examined_bytes]
    exact ofNat_ne_zero (DecodeCache.operandBytes_isAccessLength sized)
      (DecodeCache.operandBytes_ne_zero sized)
  · rw [DecodeCache.reported_string described alone, Access.fill_dataAddr, Flags.examined_addr]
    exact eq_comm

/-- `movsb`. -/
def moveString : Encoding := { prefixes := [], twobyte := false, opcode := 0xa4 }

/-- The memory with `movsb`. -/
def moveStringAt : Memory := .ofBytes 0x1000 [0xa4]

/-- Registers before `movsb`. -/
def moveStringRegs : PtRegs :=
  { (default : PtRegs) with ip := 0x1000, si := 0x2000, di := 0x3000 }

/-- A string move with a source index of zero is reported at address zero, where it reads. -/
theorem string_address_iff_move :
    ∃ acc, yyGetMemoryAccess moveStringAt { moveStringRegs with si := 0 } ⟨0, 0, fun _ => false⟩
        = some acc ∧ acc.dataLength 0 ≠ 0 ∧
      (acc.dataAddr 0 = moveString.stringAddress { moveStringRegs with si := 0 } ↔
        moveString.stringAddress { moveStringRegs with si := 0 } = 0) :=
  string_address_iff _ { moveStringRegs with si := 0 } _ moveString (by decide) (by decide)

/-- A string move with another source index is reported at address zero all the same. -/
theorem string_address_zero : moveString.HeldAt moveStringAt moveStringRegs.ip ∧
    moveString.IsString ∧
    (yyGetMemoryAccess moveStringAt moveStringRegs ⟨0, 0, fun _ => false⟩).map (·.dataAddr 0)
      = some 0 ∧ moveString.stringAddress moveStringRegs = 0x2000 ∧ (0 : Word) ≠ 0x2000 :=
  ⟨by decide, by decide, by decide, by decide, by decide⟩

end Drddr
