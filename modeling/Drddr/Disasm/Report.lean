import Drddr.Disasm.Address

/-!
# The reported operand

Which operand of an instruction the decoder reports, by the tables and by the operand stages,
and the address it reports for a ModRM operand.
-/

namespace Drddr

open Machine

/-! ## Entries -/

/-- A position of a table holds an entry of it or nothing. -/
theorem getD_forall {p : Flags → Bool} {entries : List Flags} (zero : p 0 = true)
    (each : entries.all p = true) (i : Nat) : p (entries.getD i 0) = true := by
  rw [List.getD_eq_getElem?_getD]
  cases found : entries[i]? with
  | none => exact zero
  | some d => exact List.all_eq_true.mp each d (List.mem_of_getElem? found)

/-- What holds of every entry of the four tables holds of every instruction's entry. -/
theorem Encoding.entry_forall {p : Flags → Bool} (zero : p 0 = true)
    (opcode : Op.opcodeEntries.all p = true) (twobyte : Op.twobyteEntries.all p = true)
    (group : Op.groupEntries.all p = true) (group2 : Op.group2Entries.all p = true) (e : Encoding)
    (modrm : Byte) : p (e.entry modrm) = true := by
  have single : p e.opcodeEntry = true := by
    unfold Encoding.opcodeEntry
    split
    · exact getD_forall zero twobyte _
    · exact getD_forall zero opcode _
  unfold Encoding.entry groupEntry
  split
  · split
    · exact getD_forall zero group2 _
    · exact getD_forall zero group _
  · exact single

namespace Flags

variable (d : Flags)

/-- The source is the ModRM operand. -/
def SrcModRM : Prop := d &&& Op.srcMask ∈ [Op.srcMem, Op.srcMem16, Op.srcMem32]

instance : Decidable d.SrcModRM := inferInstanceAs (Decidable (_ ∈ _))

/-- The destination is the ModRM operand. -/
def DstModRM : Prop := d &&& Op.dstMask ∈ [Op.dstMem, Op.dstMem64]

instance : Decidable d.DstModRM := inferInstanceAs (Decidable (_ ∈ _))

/-- The operands are decoded. -/
def Explicit : Prop := d &&& Op.dstMask ≠ Op.implicitOps

instance : Decidable d.Explicit := inferInstanceAs (Decidable (_ ≠ _))

/-- The entry makes the ModRM operand the reported one. -/
structure ReportsModRM : Prop where
  modRM : d.has Op.modRM = true
  operand : d.SrcModRM ∨ d.DstModRM
  notBitOp : d.has Op.bitOp = false
  notPush : d.has Op.push = false
  explicit : d.Explicit

instance : Decidable d.ReportsModRM :=
  decidable_of_iff (d.has Op.modRM = true ∧ (d.SrcModRM ∨ d.DstModRM) ∧ d.has Op.bitOp = false ∧
      d.has Op.push = false ∧ d.Explicit)
    ⟨fun ⟨modRM, operand, notBitOp, notPush, explicit⟩ =>
        ⟨modRM, operand, notBitOp, notPush, explicit⟩,
      fun r => ⟨r.modRM, r.operand, r.notBitOp, r.notPush, r.explicit⟩⟩

/-- An entry with a ModRM byte and decoded operands has no operand in memory but that of the ModRM
byte, and reads no stack slot. -/
def ModRMAlone : Prop :=
  d.has Op.modRM = true → d.Explicit →
    d &&& Op.srcMask ≠ Op.srcSI ∧ d &&& Op.src2Mask ≠ Op.src2Mem16 ∧
      (d.has Op.stack = true → d.has Op.push = false → d.has Op.pop = false)

instance : Decidable d.ModRMAlone := inferInstanceAs (Decidable (_ → _ → _))

end Flags

/-- In the tables, every ModRM operand stands alone. -/
theorem Encoding.modRMAlone (e : Encoding) (modrm : Byte) : (e.entry modrm).ModRMAlone :=
  of_decide_eq_true <| entry_forall (p := fun d => decide d.ModRMAlone) (by decide +kernel)
    (by decide +kernel) (by decide +kernel) (by decide +kernel) (by decide +kernel) e modrm

/-! ## Operands -/

namespace DecodeCache

variable (m : Memory) (c : DecodeCache)

/-- The source is read from no memory: the invlpg exception. -/
def IsInvlpg : Prop := c.twobyte = true ∧ c.b = 0x01 ∧ c.modrmReg = 7

instance : Decidable c.IsInvlpg := inferInstanceAs (Decidable (_ ∧ _))

/-- A ModRM operand in memory is decoded to its address. -/
theorem srcMemCommon_of_ne (src : Operand) (memory : c.modrmMod ≠ 3) :
    c.srcMemCommon src = { src with type := .OP_MEM, ptr := c.modrmEa, val := 0 } := by
  have notReg : ¬(c.d.has Op.modRM = true ∧ c.modrmMod = 3) := fun both => memory both.2
  rw [srcMemCommon, if_neg notReg]

/-- A source that is the ModRM operand is in memory at its address. -/
theorem srcOperand_modRM (source : c.d.SrcModRM) (memory : c.modrmMod ≠ 3)
    (accessed : ¬c.IsInvlpg) :
    (c.srcOperand m).1.type = .OP_MEM ∧ (c.srcOperand m).1.ptr = c.modrmEa := by
  simp only [Flags.SrcModRM, List.mem_cons, List.not_mem_nil, or_false] at source
  have exempt : ¬(c.twobyte = true ∧ c.b = 0x01 ∧ c.modrmReg = 7) := accessed
  rcases source with kind | kind | kind
  · have place :
        c.srcOperand m = (c.srcMemCommon { c.src with bytes := c.operandBytes }, c.eip) := by
      simp only [srcOperand, kind]
      rw [if_neg (by decide), if_neg (by decide), if_neg (by decide), if_true, if_neg exempt]
    rw [place, c.srcMemCommon_of_ne _ memory]
    exact ⟨rfl, rfl⟩
  · have place : c.srcOperand m = (c.srcMemCommon { c.src with bytes := 2 }, c.eip) := by
      simp only [srcOperand, kind]
      rw [if_neg (by decide), if_true]
    rw [place, c.srcMemCommon_of_ne _ memory]
    exact ⟨rfl, rfl⟩
  · have place : c.srcOperand m = (c.srcMemCommon { c.src with bytes := 4 }, c.eip) := by
      simp only [srcOperand, kind]
      rw [if_neg (by decide), if_neg (by decide), if_true]
    rw [place, c.srcMemCommon_of_ne _ memory]
    exact ⟨rfl, rfl⟩

/-- No source that is neither a ModRM operand nor at the source index is in memory. -/
theorem srcOperand_other (blank : c.src.type ≠ .OP_MEM) (other : ¬c.d.SrcModRM)
    (notSI : c.d &&& Op.srcMask ≠ Op.srcSI) : (c.srcOperand m).1.type ≠ .OP_MEM := by
  simp only [Flags.SrcModRM, List.mem_cons, List.not_mem_nil, or_false, not_or] at other
  simp only [srcOperand, other.1, other.2.1, other.2.2, notSI, if_false]
  split_ifs
  · unfold decodeRegisterOperand
    simp only
    split_ifs <;> simp
  all_goals first | exact blank | simp

/-- No second source is in memory, the one after the ModRM operand apart. -/
theorem src2Operand_other (blank : c.src2.type ≠ .OP_MEM)
    (notMem : c.d &&& Op.src2Mask ≠ Op.src2Mem16) : (c.src2Operand m).1.type ≠ .OP_MEM := by
  simp only [src2Operand, notMem, if_false]
  split_ifs <;> first | exact blank | simp

/-- A destination that is the ModRM operand is in memory at its address. -/
theorem dstOperand_modRM (destination : c.d.DstModRM) (memory : c.modrmMod ≠ 3)
    (notBitOp : c.d.has Op.bitOp = false) :
    c.dstOperand.type = .OP_MEM ∧ c.dstOperand.ptr = c.modrmEa := by
  have notReg : ¬(c.d.has Op.modRM = true ∧ c.modrmMod = 3) := fun both => memory both.2
  simp only [Flags.DstModRM, List.mem_cons, List.not_mem_nil, or_false] at destination
  have kind : c.d &&& Op.dstMask ≠ Op.dstReg := by
    rcases destination with kind | kind <;> rw [kind] <;> decide
  simp only [dstOperand, kind, destination, notReg, notBitOp, Bool.false_eq_true, if_true, if_false,
    and_self]

/-! ## The report -/

/-- An operand at the address of the ModRM operand is the one reported. -/
theorem reportOperand_modRM {m : Memory} {c : DecodeCache} (out : Access)
    (blank : c.src.type ≠ .OP_MEM) (blank2 : c.src2.type ≠ .OP_MEM) (reports : c.d.ReportsModRM)
    (alone : c.d.ModRMAlone) (memory : c.modrmMod ≠ 3) (accessed : ¬c.IsInvlpg) :
    (out.reportOperand (c.operands m)).dataAddr 0 = c.modrmEa := by
  have only := alone reports.modRM reports.explicit
  by_cases source : c.d.SrcModRM
  · have filled := c.srcOperand_modRM m source memory accessed
    have src : (c.operands m).src.type = .OP_MEM := filled.1
    rw [Access.reportOperand, if_pos src]
    exact filled.2
  · have src : (c.operands m).src.type ≠ .OP_MEM := c.srcOperand_other m blank source only.1
    let c' : DecodeCache := { c with src := (c.srcOperand m).1, eip := (c.srcOperand m).2 }
    have src2 : (c.operands m).src2.type ≠ .OP_MEM := c'.src2Operand_other m blank2 only.2.1
    have destination : c.d.DstModRM := reports.operand.resolve_left source
    let c'' : DecodeCache := { c' with src2 := (c'.src2Operand m).1, eip := (c'.src2Operand m).2 }
    have filled := c''.dstOperand_modRM destination memory reports.notBitOp
    have dst : (c.operands m).dst.type = .OP_MEM := filled.1
    rw [Access.reportOperand, if_neg src, if_neg src2, if_pos dst]
    exact filled.2

/-- Neither a stack slot nor the direction changes the reported address. -/
theorem result_dataAddr {m : Memory} {c : DecodeCache} (out : Access)
    (reports : c.d.ReportsModRM) (alone : c.d.ModRMAlone) :
    (c.result m out).dataAddr 0 = (out.reportOperand (c.operands m)).dataAddr 0 := by
  have only := alone reports.modRM reports.explicit
  have explicit : ¬c.d &&& Op.dstMask = Op.implicitOps := reports.explicit
  have same : (out.reportOperand (c.operands m)).reportStack (c.operands m)
      = out.reportOperand (c.operands m) := by
    have entry : (c.operands m).d = c.d := rfl
    unfold Access.reportStack
    rw [entry, reports.notPush]
    cases stack : c.d.has Op.stack with
    | false => rfl
    | true =>
      rw [only.2.2 stack reports.notPush]
      rfl
  rw [result, if_neg explicit]
  simp only [same]
  unfold Access.reportReadOnly
  split <;> rfl

end DecodeCache

/-- `yy_get_memory_access` on an instruction goes on from its lookup. -/
theorem yyGetMemoryAccess_found {m : Memory} {regs : PtRegs} {e : Encoding}
    (held : e.HeldAt m regs.ip) (isOpcode : e.IsOpcode) :
    ∃ segSet seg, ∀ out, yyGetMemoryAccess m regs out =
      let c := DecodeCache.afterLookup m regs e segSet seg
      some (if c.d = Op.known ∨ c.d = 0 then { out with dataLength := fun _ => 0 }
        else (c.address m regs).result m { out with dataLength := fun _ => 0 }) := by
  obtain ⟨segSet, seg, found⟩ := DecodeCache.lookup_spec held isOpcode
  refine ⟨segSet, seg, fun out => ?_⟩
  let finish (c : DecodeCache) : Access :=
    if c.d = Op.known ∨ c.d = 0 then { out with dataLength := fun _ => 0 }
    else (c.address m regs).result m { out with dataLength := fun _ => 0 }
  have staged : yyGetMemoryAccess m regs out
      = ((DecodeCache.legacyPrefixes m (2 ^ 64) (.init regs)).map (DecodeCache.lookup m)).map
        finish := by
    rw [Option.map_map]
    rfl
  rw [staged, found, Option.map_some]

/-- `yy_get_memory_access` reports an instruction that the tables describe by its operands. -/
theorem yyGetMemoryAccess_decoded {m : Memory} {regs : PtRegs} {e : Encoding} (out : Access)
    (held : e.HeldAt m regs.ip) (isOpcode : e.IsOpcode)
    (described : ¬(e.entry (m (e.tail regs.ip)) = Op.known ∨ e.entry (m (e.tail regs.ip)) = 0)) :
    ∃ segSet seg, yyGetMemoryAccess m regs out =
      some (((DecodeCache.afterLookup m regs e segSet seg).address m regs).result m
        { out with dataLength := fun _ => 0 }) := by
  obtain ⟨segSet, seg, found⟩ := yyGetMemoryAccess_found held isOpcode
  exact ⟨segSet, seg, (found out).trans (congrArg some (if_neg described))⟩

/-- An entry with a ModRM byte describes its instruction. -/
theorem described_of_modRM {d : Flags} (modRM : d.has Op.modRM = true) :
    ¬(d = Op.known ∨ d = 0) := by
  rintro (known | unknown)
  · rw [known] at modRM
    exact absurd modRM (by decide)
  · rw [unknown] at modRM
    exact absurd modRM (by decide)

/-- The instruction at an address has a ModRM operand that is reported, in memory and relative
to a register. invlpg accesses no memory and is not reported. -/
structure Encoding.AccessesModRM (e : Encoding) (m : Memory) (ip : Word) : Prop where
  held : e.HeldAt m ip
  reports : (e.entry (m (e.tail ip))).ReportsModRM
  form : IsMemoryForm (m (e.tail ip))
  notInvlpg : ¬(e.twobyte = true ∧ e.opcode = 0x01 ∧
    extendReg (e.rex.getLsbD 2) (regField (m (e.tail ip))) = 7)

/-- The form of the address that the instruction names. -/
def Encoding.addressForm (e : Encoding) (m : Memory) (ip : Word) : AddressForm :=
  Drddr.addressForm m e.rex (e.tail ip)

/-- `yy_get_memory_access` on such an instruction: the address is that of the registers with the
displacement as an unsigned number. -/
theorem yyGetMemoryAccess_modRM {m : Memory} {regs : PtRegs} {e : Encoding} (out : Access)
    (accesses : e.AccessesModRM m regs.ip) :
    ∃ acc, yyGetMemoryAccess m regs out = some acc ∧
      acc.dataAddr 0 = truncateAddress e.addr32
        ((e.addressForm m regs.ip).registers regs + (e.addressForm m regs.ip).dispRead m) := by
  have reports := accesses.reports
  have alone := e.modRMAlone (m (e.tail regs.ip))
  obtain ⟨segSet, seg, decoded⟩ := yyGetMemoryAccess_decoded out accesses.held
    (e.isOpcode_of_modRM reports.modRM) (described_of_modRM reports.modRM)
  refine ⟨_, decoded, ?_⟩
  rw [DecodeCache.address_modRM reports.modRM accesses.form]
  generalize same : ({ DecodeCache.afterModRM m regs (.afterLookup m regs e segSet seg) with
    opBytes := _, hasSegOverride := true, segOverride := _, modrmEa := _ } : DecodeCache) = c
  have entry : c.d = e.entry (m (e.tail regs.ip)) := by
    rw [← same]
    rfl
  have blank : c.src.type ≠ .OP_MEM := by
    rw [← same]
    exact nofun
  have blank2 : c.src2.type ≠ .OP_MEM := by
    rw [← same]
    exact nofun
  have memory : c.modrmMod ≠ 3 := by
    rw [← same]
    intro three
    exact accesses.form.1 ((mod_eq_iff (m (e.tail regs.ip)) 3).mp three)
  have notInvlpg : ¬c.IsInvlpg := by
    rw [← same]
    intro invlpg
    have seven := (regByte_eq_iff _ (m (e.tail regs.ip)) (k := 7) (by decide)).mp invlpg.2.2
    exact accesses.notInvlpg ⟨invlpg.1, invlpg.2.1, seven⟩
  rw [← entry] at reports alone
  rw [DecodeCache.result_dataAddr _ reports alone,
    DecodeCache.reportOperand_modRM _ blank blank2 reports alone memory notInvlpg, ← same]
  rfl

end Drddr
