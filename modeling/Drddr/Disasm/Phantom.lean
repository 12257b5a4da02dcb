import Drddr.Disasm.TwoRun

/-!
# Instructions that access no memory

A ModRM byte that names a register, and LEA, which computes an address and leaves it at that.
-/

namespace Drddr

open Machine

/-- The entry of LEA has a ModRM byte and no operand that it names. -/
theorem lea_entry : (opcodeTable 0x8d).has Op.modRM = true ∧
    (opcodeTable 0x8d).has Op.push = false ∧ (opcodeTable 0x8d).has Op.group = false ∧
      ¬(opcodeTable 0x8d).SrcModRM ∧ ¬(opcodeTable 0x8d).DstModRM := by decide

/-- The instruction has a ModRM byte that names a register, and is no push. -/
def Encoding.NamesRegister (e : Encoding) (modrm : Byte) : Prop :=
  (e.entry modrm).has Op.modRM = true ∧ modField modrm = 3 ∧ (e.entry modrm).has Op.push = false

instance (e : Encoding) (modrm : Byte) : Decidable (e.NamesRegister modrm) :=
  inferInstanceAs (Decidable (_ ∧ _))

/-- The instruction is LEA. -/
def Encoding.IsLea (e : Encoding) : Prop := e.twobyte = false ∧ e.opcode = 0x8d

instance (e : Encoding) : Decidable e.IsLea := inferInstanceAs (Decidable (_ ∧ _))

/-- No access is reported of an instruction whose ModRM byte names a register, unless it pushes,
and none of LEA. -/
theorem no_phantom_access (m : Memory) (regs : PtRegs) (out : Access) (e : Encoding)
    (held : e.HeldAt m regs.ip) (without : e.NamesRegister (m (e.tail regs.ip)) ∨ e.IsLea) :
    ∃ acc, yyGetMemoryAccess m regs out = some acc ∧ acc.dataLength 0 = 0 := by
  refine ⟨{ out with dataLength := fun _ => 0 }, ?_, rfl⟩
  have apart := e.operandsApart (m (e.tail regs.ip))
  rcases without with ⟨modRM, register, notPush⟩ | ⟨single, lea⟩
  · obtain ⟨segSet, seg, found⟩ := yyGetMemoryAccess_reported held (e.isOpcode_of_modRM modRM)
    have three := (address_fields segSet seg modRM).1.mpr register
    have entry : _ = e.entry (m (e.tail regs.ip)) :=
      (DecodeCache.carries_address m regs (.afterLookup m regs e segSet seg)).d
    rw [← entry] at apart modRM notPush
    rw [found out, DecodeCache.reported_none modRM notPush apart]
    · rfl
    · exact fun _ _ => .inl ⟨modRM, three⟩
    · exact fun _ _ => ⟨modRM, three⟩
  · have entry : e.entry (m (e.tail regs.ip)) = opcodeTable 0x8d := by
      rw [e.entry_of_single _ single, lea, groupEntry_of_not_group _ lea_entry.2.2.1]
    have modRM : (e.entry (m (e.tail regs.ip))).has Op.modRM = true := by
      rw [entry]
      exact lea_entry.1
    obtain ⟨segSet, seg, found⟩ := yyGetMemoryAccess_reported held (e.isOpcode_of_modRM modRM)
    have carried : ((DecodeCache.afterLookup m regs e segSet seg).address m regs).d
        = opcodeTable 0x8d := (DecodeCache.carries_address m regs _).d.trans entry
    rw [entry] at apart
    rw [found out, DecodeCache.reported_none]
    · rfl
    all_goals rw [carried]
    · exact lea_entry.1
    · exact lea_entry.2.1
    · exact apart
    · exact fun _ source => absurd source lea_entry.2.2.2.1
    · exact fun _ destination => absurd destination lea_entry.2.2.2.2

/-- `lea -0x20(%rbp), %rdx`, from `disassem-test.c`. -/
def leaOfFrame : Encoding := { prefixes := [0x48], twobyte := false, opcode := 0x8d }

/-- LEA of a frame address reports no access. -/
theorem no_phantom_access_lea :
    ∃ acc, yyGetMemoryAccess (.ofBytes 0x1000 [0x48, 0x8d, 0x55, 0xe0])
      { (default : PtRegs) with ip := 0x1000 } ⟨0, 0, fun _ => false⟩ = some acc ∧
      acc.dataLength 0 = 0 :=
  no_phantom_access _ { (default : PtRegs) with ip := 0x1000 } _ leaOfFrame (by decide)
    (.inr ⟨rfl, rfl⟩)

end Drddr
