import Drddr.Disasm.BitString
import Drddr.Disasm.Strings

/-!
# Operands that are only examined

The decoder takes a destination for one that is written unless its entry says otherwise. The
entries of CMP and TEST do; those of BT and SCAS do not.
-/

namespace Drddr

open Machine

/-- The instructions that examine an operand and leave it as it is. -/
inductive Examiner where
  | CMP
  | TEST
  | BT
  | SCAS
  | CMPS
  deriving DecidableEq

/-- The opcodes of CMP, TEST and CMPS that are not in a group. -/
def examinerOpcodes : Examiner → List Byte
  | .CMP => [0x38, 0x39, 0x3a, 0x3b, 0x3c, 0x3d]
  | .TEST => [0x84, 0x85, 0xa8, 0xa9]
  | .CMPS => [0xa6, 0xa7]
  | _ => []

/-- The instruction with a ModRM byte is an instruction that only examines its operand. -/
inductive Encoding.Examines (e : Encoding) (modrm : Byte) : Examiner → Prop
  | single (i : Examiner) : e.twobyte = false → (examinerOpcodes i).contains e.opcode = true →
      Examines e modrm i
  | cmpGroup : e.twobyte = false → [0x80, 0x81, 0x82, 0x83].contains e.opcode = true →
      regField modrm = 7 → Examines e modrm .CMP
  | testGroup : e.twobyte = false → [0xf6, 0xf7].contains e.opcode = true →
      regField modrm ≤ 1 → Examines e modrm .TEST
  | scas : e.twobyte = false → [0xae, 0xaf].contains e.opcode = true → Examines e modrm .SCAS
  | bt : e.twobyte = true → e.opcode = 0xa3 → Examines e modrm .BT
  | btGroup : e.twobyte = true → e.opcode = 0xba → regField modrm = 4 → Examines e modrm .BT

/-! ## Entries that only read -/

/-- An entry that only reads: nothing that it reports is written. -/
def Flags.OnlyReads (d : Flags) : Prop :=
  d.has Op.readOnly = true ∨ (d.has Op.stack = false ∧
    (d &&& Op.srcMask = Op.srcSI ∨ (¬d.DstModRM ∧ d &&& Op.dstMask ≠ Op.dstDI)))

instance (d : Flags) : Decidable d.OnlyReads := inferInstanceAs (Decidable (_ ∨ _))

/-- The opcodes of CMP, TEST and CMPS have entries that only read. -/
theorem examinerOpcodes_read : ∀ i : Examiner, ∀ b : Byte, (examinerOpcodes i).contains b = true →
    (isPrefix b = false ∧ b ≠ 0x0f) ∧ (opcodeTable b).has Op.group = false ∧
      (opcodeTable b).OnlyReads := by
  intro i
  cases i <;> decide

set_option maxRecDepth 2048 in
/-- The groups of the comparisons have entries that only read. -/
theorem cmpGroup_read : ∀ b : Byte, [0x80, 0x81, 0x82, 0x83].contains b = true →
    (isPrefix b = false ∧ b ≠ 0x0f) ∧
      ∀ modrm : Byte, regField modrm = 7 → (groupEntry (opcodeTable b) modrm).OnlyReads := by
  decide

set_option maxRecDepth 2048 in
/-- The groups of TEST have entries that only read. -/
theorem testGroup_read : ∀ b : Byte, [0xf6, 0xf7].contains b = true →
    (isPrefix b = false ∧ b ≠ 0x0f) ∧
      ∀ modrm : Byte, regField modrm ≤ 1 → (groupEntry (opcodeTable b) modrm).OnlyReads := by
  decide

namespace DecodeCache

variable {c : DecodeCache} {r : Reported}

/-- A source operand is reported as read. -/
theorem sourceAccess_write (found : c.sourceAccess = some r) : r.write = false := by
  unfold sourceAccess at found
  split_ifs at found
  · injection found with same
    rw [← same]
  · injection found with same
    rw [← same]

/-- A second source operand is reported as read. -/
theorem secondAccess_write (found : c.secondAccess = some r) : r.write = false := by
  unfold secondAccess at found
  split_ifs at found
  injection found with same
  rw [← same]

/-- An operand that is read is not reported as written. -/
theorem examined_write_of_read (d : Flags) (read : r.write = false) :
    (d.examined r).write = false := by
  rw [Flags.examined_write, read, ite_self]

/-- What an entry that only reads reports. -/
theorem reported_onlyReads (reads : c.d.OnlyReads) (found : c.reported = some r)
    (nonzero : BitVec.ofNat 16 r.bytes ≠ 0) : r.write = false := by
  unfold reported at found
  split at found
  · rw [Option.map_eq_some_iff] at found
    obtain ⟨r', operand, rfl⟩ := found
    rcases reads with readOnly | ⟨noStack, operands⟩
    · rw [Flags.examined_bytes] at nonzero
      rw [Flags.examined_write, if_pos ⟨nonzero, readOnly⟩]
    · apply examined_write_of_read
      rw [stackAccess_of_not_stack noStack, Option.orElse_eq_orElse, Option.orElse_none] at operand
      cases first : c.sourceAccess with
      | some source =>
        rw [first] at operand
        injection operand with same
        rw [← same]
        exact sourceAccess_write first
      | none =>
        have notSI : ¬c.d &&& Op.srcMask = Op.srcSI := by
          intro source
          have notModRM : ¬c.d.SrcModRM := by
            rw [Flags.SrcModRM, source]
            decide
          rw [sourceAccess, if_neg notModRM, if_pos source] at first
          cases first
        obtain ⟨notModRM, notDI⟩ := operands.resolve_left notSI
        have third : c.destAccess = none := by
          rw [destAccess, if_neg notModRM, if_neg notDI]
        rw [first, third] at operand
        cases second : c.secondAccess with
        | some source =>
          rw [second] at operand
          injection operand with same
          rw [← same]
          exact secondAccess_write second
        | none =>
          rw [second] at operand
          cases operand
  · cases found

end DecodeCache

/-- `yy_get_memory_access` reports no write of an instruction whose entry only reads. -/
theorem yyGetMemoryAccess_onlyReads {m : Memory} {regs : PtRegs} {e : Encoding} (out : Access)
    (held : e.HeldAt m regs.ip) (isOpcode : e.IsOpcode)
    (reads : (e.entry (m (e.tail regs.ip))).OnlyReads) :
    ∃ acc, yyGetMemoryAccess m regs out = some acc ∧
      (acc.dataLength 0 ≠ 0 → acc.isWrite 0 = false) := by
  obtain ⟨segSet, seg, found⟩ := yyGetMemoryAccess_reported held isOpcode
  have entry : _ = e.entry (m (e.tail regs.ip)) :=
    (DecodeCache.carries_address m regs (.afterLookup m regs e segSet seg)).d
  generalize (DecodeCache.afterLookup m regs e segSet seg).address m regs = c at found entry
  rw [← entry] at reads
  refine ⟨_, found out, ?_⟩
  cases reported : c.reported with
  | none => exact fun nonzero => absurd rfl nonzero
  | some r =>
    rw [Access.fill_dataLength, Access.fill_isWrite]
    exact DecodeCache.reported_onlyReads reads reported

/-! ## Entries that write -/

/-- An entry whose destination is taken for one that is written: a ModRM operand or a string. -/
structure Flags.TakenForWrite (d : Flags) : Prop where
  explicit : d.Explicit
  notReadOnly : d.has Op.readOnly = false
  notSource : ¬d.SrcModRM ∧ d &&& Op.srcMask ≠ Op.srcSI
  destination : (d.has Op.modRM = true ∧ d.has Op.push = false ∧ d &&& Op.dstMask = Op.dstMem) ∨
    d &&& Op.dstMask = Op.dstDI

instance (d : Flags) : Decidable d.TakenForWrite :=
  decidable_of_iff (d.Explicit ∧ d.has Op.readOnly = false ∧
      (¬d.SrcModRM ∧ d &&& Op.srcMask ≠ Op.srcSI) ∧
      ((d.has Op.modRM = true ∧ d.has Op.push = false ∧ d &&& Op.dstMask = Op.dstMem) ∨
        d &&& Op.dstMask = Op.dstDI))
    ⟨fun ⟨explicit, notReadOnly, notSource, destination⟩ =>
        ⟨explicit, notReadOnly, notSource, destination⟩,
      fun d => ⟨d.explicit, d.notReadOnly, d.notSource, d.destination⟩⟩

/-- In the tables, SCAS has entries that are taken for writes. -/
theorem scas_written : ∀ b : Byte, [0xae, 0xaf].contains b = true →
    (isPrefix b = false ∧ b ≠ 0x0f) ∧ (opcodeTable b).has Op.group = false ∧
      (opcodeTable b).has Op.modRM = false ∧ (opcodeTable b).TakenForWrite := by decide

/-- In the tables, BT has an entry that is taken for a write. -/
theorem bt_written : (twobyteTable 0xa3).has Op.group = false ∧
    (twobyteTable 0xa3).has Op.modRM = true ∧ (twobyteTable 0xa3).TakenForWrite := by decide

/-- In the tables, BT with an immediate has entries that are taken for writes. -/
theorem btGroup_written : ∀ modrm : Byte, regField modrm = 4 →
    (groupEntry (twobyteTable 0xba) modrm).has Op.modRM = true ∧
      (groupEntry (twobyteTable 0xba) modrm).TakenForWrite := by decide

namespace DecodeCache

variable {c : DecodeCache}

/-- An entry that is taken for a write reports one, when its destination is in memory. -/
theorem reported_written (written : c.d.TakenForWrite) (apart : c.d.OperandsApart)
    (alone : c.d.StringAlone) (memory : c.d.has Op.modRM = true → c.modrmMod ≠ 3) :
    ∃ addr, c.reported = some ⟨addr, c.operandBytes, true⟩ := by
  have kept (r : Reported) : c.d.examined r = r := by
    simp [Flags.examined, written.notReadOnly]
  have bytes (wide : c.d &&& Op.dstMask ≠ Op.dstMem64) :
      c.d.destBytes c.opBytes = c.operandBytes := if_neg wide
  rcases written.destination with ⟨modRM, notPush, destination⟩ | destination
  · have named : c.d.DstModRM := by
      rw [Flags.DstModRM, destination]
      decide
    rw [reported_destination modRM written.explicit notPush apart written.notSource.1 named
      (memory modRM), kept, bytes (by rw [destination]; decide)]
    exact ⟨_, rfl⟩
  · rw [reported_string ⟨written.explicit, .inr destination⟩ alone, kept,
      decide_eq_false written.notSource.2]
    exact ⟨_, rfl⟩

/-- Nothing is reported of an instruction that is taken for a write when its operand is in a
register. -/
theorem reported_written_register (written : c.d.TakenForWrite) (apart : c.d.OperandsApart)
    (names : c.NamesRegister) : c.reported = none := by
  have notDI : ¬c.d &&& Op.dstMask = Op.dstDI := fun destination =>
    (apart written.explicit names.1).2.2.1 destination
  obtain ⟨modRM, notPush, -⟩ := written.destination.resolve_right notDI
  apply reported_none modRM notPush apart
  · exact fun _ source => absurd source written.notSource.1
  · exact fun _ _ => names

end DecodeCache

/-- `yy_get_memory_access` on an instruction with such an entry: a write is reported if the
destination is in memory. -/
theorem yyGetMemoryAccess_written {m : Memory} {regs : PtRegs} {e : Encoding} (out : Access)
    (held : e.HeldAt m regs.ip) (isOpcode : e.IsOpcode)
    (written : (e.entry (m (e.tail regs.ip))).TakenForWrite) :
    ∃ acc, yyGetMemoryAccess m regs out = some acc ∧
      ((acc.dataLength 0 ≠ 0 → acc.isWrite 0 = false) ↔
        (e.entry (m (e.tail regs.ip))).has Op.modRM = true ∧
          modField (m (e.tail regs.ip)) = 3) := by
  obtain ⟨segSet, seg, found⟩ := yyGetMemoryAccess_reported held isOpcode
  have entry : _ = e.entry (m (e.tail regs.ip)) :=
    (DecodeCache.carries_address m regs (.afterLookup m regs e segSet seg)).d
  have sized := DecodeCache.address_sized m regs e segSet seg
  have apart := e.operandsApart (m (e.tail regs.ip))
  have alone := e.stringAlone (m (e.tail regs.ip))
  have three (modRM : (e.entry (m (e.tail regs.ip))).has Op.modRM = true) :=
    (address_fields segSet seg modRM).1
  generalize (DecodeCache.afterLookup m regs e segSet seg).address m regs = c
    at found entry sized three
  rw [← entry] at written apart alone three ⊢
  refine ⟨_, found out, ?_⟩
  by_cases register : c.d.has Op.modRM = true ∧ modField (m (e.tail regs.ip)) = 3
  · have names : c.NamesRegister := ⟨register.1, (three register.1).mpr register.2⟩
    rw [DecodeCache.reported_written_register written apart names]
    exact iff_of_true (fun nonzero => absurd rfl nonzero) register
  · have memory (modRM : c.d.has Op.modRM = true) : c.modrmMod ≠ 3 := fun same =>
      register ⟨modRM, (three modRM).mp same⟩
    obtain ⟨addr, reported⟩ := DecodeCache.reported_written written apart alone memory
    rw [reported, Access.fill_dataLength, Access.fill_isWrite]
    have nonzero : BitVec.ofNat 16 c.operandBytes ≠ 0 :=
      ofNat_ne_zero (DecodeCache.operandBytes_isAccessLength sized)
        (DecodeCache.operandBytes_ne_zero sized)
    exact iff_of_false (fun read => Bool.noConfusion (read nonzero)) register

/-! ## The reported direction -/

/-- An instruction that examines its operand is reported as a read exactly when it is neither SCAS
nor BT with an operand in memory. -/
theorem read_only_iff (m : Memory) (regs : PtRegs) (out : Access) (e : Encoding) (i : Examiner)
    (held : e.HeldAt m regs.ip) (examines : e.Examines (m (e.tail regs.ip)) i) :
    ∃ acc, yyGetMemoryAccess m regs out = some acc ∧
      ((acc.dataLength 0 ≠ 0 → acc.isWrite 0 = false) ↔
        ¬(i = .SCAS ∨ (i = .BT ∧ modField (m (e.tail regs.ip)) ≠ 3))) := by
  -- Those that are not BT or SCAS have entries that only read.
  have reader (isOpcode : e.IsOpcode) (reads : (e.entry (m (e.tail regs.ip))).OnlyReads)
      (other : i ≠ .SCAS ∧ i ≠ .BT) :
      ∃ acc, yyGetMemoryAccess m regs out = some acc ∧
        ((acc.dataLength 0 ≠ 0 → acc.isWrite 0 = false) ↔
          ¬(i = .SCAS ∨ (i = .BT ∧ modField (m (e.tail regs.ip)) ≠ 3))) := by
    obtain ⟨acc, decoded, read⟩ := yyGetMemoryAccess_onlyReads out held isOpcode reads
    refine ⟨acc, decoded, iff_of_true read ?_⟩
    rintro (scas | ⟨bt, -⟩)
    · exact other.1 scas
    · exact other.2 bt
  cases examines with
  | single i single opcode =>
    obtain ⟨plain, alone, reads⟩ := examinerOpcodes_read i e.opcode opcode
    apply reader fun _ => plain
    · rw [e.entry_of_single _ single, groupEntry_of_not_group _ alone]
      exact reads
    · constructor
      · rintro rfl
        cases opcode
      · rintro rfl
        cases opcode
  | cmpGroup single opcode seven =>
    obtain ⟨plain, reads⟩ := cmpGroup_read e.opcode opcode
    apply reader fun _ => plain
    · rw [e.entry_of_single _ single]
      exact reads _ seven
    · decide
  | testGroup single opcode low =>
    obtain ⟨plain, reads⟩ := testGroup_read e.opcode opcode
    apply reader fun _ => plain
    · rw [e.entry_of_single _ single]
      exact reads _ low
    · decide
  | scas single opcode =>
    obtain ⟨plain, alone, noModRM, written⟩ := scas_written e.opcode opcode
    have entry : e.entry (m (e.tail regs.ip)) = opcodeTable e.opcode := by
      rw [e.entry_of_single _ single, groupEntry_of_not_group _ alone]
    obtain ⟨acc, decoded, direction⟩ := yyGetMemoryAccess_written out held (fun _ => plain)
      (entry ▸ written)
    refine ⟨acc, decoded, direction.trans (iff_of_false ?_ ?_)⟩
    · rw [entry, noModRM]
      exact fun both => Bool.false_ne_true both.1
    · exact not_not.mpr (.inl rfl)
  | bt escape opcode =>
    have entry : e.entry (m (e.tail regs.ip)) = twobyteTable 0xa3 := by
      rw [e.entry_of_escape _ escape, opcode, groupEntry_of_not_group _ bt_written.1]
    have modRM := entry ▸ bt_written.2.1
    obtain ⟨acc, decoded, direction⟩ := yyGetMemoryAccess_written out held
      (e.isOpcode_of_modRM modRM) (entry ▸ bt_written.2.2)
    refine ⟨acc, decoded, direction.trans ?_⟩
    simp [modRM]
  | btGroup escape opcode four =>
    have entry : e.entry (m (e.tail regs.ip)) =
        groupEntry (twobyteTable 0xba) (m (e.tail regs.ip)) := by
      rw [e.entry_of_escape _ escape, opcode]
    have modRM := entry ▸ (btGroup_written _ four).1
    obtain ⟨acc, decoded, direction⟩ := yyGetMemoryAccess_written out held
      (e.isOpcode_of_modRM modRM) (entry ▸ (btGroup_written _ four).2)
    refine ⟨acc, decoded, direction.trans ?_⟩
    simp [modRM]

/-- `cmp %eax, 0x10(%rbx)`. -/
def compareMemory : Encoding := { prefixes := [], twobyte := false, opcode := 0x39 }

/-- A comparison is reported as a read. -/
theorem read_only_iff_compare :
    ∃ acc, yyGetMemoryAccess (.ofBytes 0x1000 [0x39, 0x43, 0x10]) (bitSetRegs 0)
        ⟨0, 0, fun _ => false⟩ = some acc ∧
      (acc.dataLength 0 ≠ 0 → acc.isWrite 0 = false) := by
  obtain ⟨acc, decoded, direction⟩ := read_only_iff (.ofBytes 0x1000 [0x39, 0x43, 0x10])
    (bitSetRegs 0) ⟨0, 0, fun _ => false⟩ compareMemory .CMP (by decide) (.single .CMP rfl rfl)
  exact ⟨acc, decoded, direction.mpr (by decide)⟩

/-- `bt %eax, 0x10(%rbx)`. -/
def bitTest : Encoding := { prefixes := [], twobyte := true, opcode := 0xa3 }

/-- The memory with `bt %eax, 0x10(%rbx)`. -/
def bitTestAt : Memory := .ofBytes 0x1000 [0x0f, 0xa3, 0x43, 0x10]

/-- A bit test is reported as a write of four bytes. -/
theorem bit_test_written :
    bitTest.HeldAt bitTestAt (bitSetRegs 0).ip ∧
      bitTest.Examines (bitTestAt (bitTest.tail 0x1000)) .BT ∧
      modField (bitTestAt (bitTest.tail 0x1000)) ≠ 3 ∧
      (yyGetMemoryAccess bitTestAt (bitSetRegs 0) ⟨0, 0, fun _ => false⟩).map
        (fun acc => (acc.dataLength 0, acc.isWrite 0)) = some (4, true) :=
  ⟨by decide, .bt rfl rfl, by decide, by decide⟩

end Drddr
