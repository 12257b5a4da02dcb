import Drddr.Disasm.Displacement

/-!
# Operands relative to the instruction pointer

The decoder adds the instruction pointer as it stands after the ModRM operand, before any
immediate bytes, and the displacement as an unsigned number; with REX.B it takes the operand for
one without displacement.
-/

namespace Drddr

open Machine

/-! ## Encodings -/

/-- Bytes of immediate operand that follow a ModRM operand. -/
def Encoding.immediateBytes (e : Encoding) (modrm : Byte) : Nat :=
  let operand := if e.rex.getLsbD 3 then 4 else if e.opSize then 2 else 4
  if e.twobyte then
    if [0x70, 0x71, 0x72, 0x73, 0xa4, 0xac, 0xba, 0xc2, 0xc4, 0xc5, 0xc6].contains e.opcode then 1
    else 0
  else if [0x6b, 0x80, 0x82, 0x83, 0xc0, 0xc1, 0xc6].contains e.opcode then 1
  else if [0x69, 0x81, 0xc7].contains e.opcode then operand
  -- Of these two groups only the tests have one.
  else if e.opcode = 0xf6 ∧ regField modrm ≤ 1 then 1
  else if e.opcode = 0xf7 ∧ regField modrm ≤ 1 then operand
  else 0

/-- No instruction has more than four bytes of immediate operand. -/
theorem Encoding.immediateBytes_le (e : Encoding) (modrm : Byte) : e.immediateBytes modrm ≤ 4 := by
  unfold immediateBytes
  simp only
  split_ifs <;> decide

/-- A ModRM byte whose operand is relative to the instruction pointer. -/
def IsRipForm (modrm : Byte) : Prop := modField modrm = 0 ∧ rmField modrm = 5

instance (modrm : Byte) : Decidable (IsRipForm modrm) := inferInstanceAs (Decidable (_ ∧ _))

/-- The displacement that follows the ModRM byte at an address. -/
def ripDisp (m : Memory) (a : Word) : BitVec 32 := (m.read (a + 1#64) 4).setWidth 32

/-- The address of the byte after the whole instruction. -/
def Encoding.next (e : Encoding) (m : Memory) (ip : Word) : Word :=
  e.tail ip + 5#64 + BitVec.ofNat 64 (e.immediateBytes (m (e.tail ip)))

/-- The address that the operand names. -/
def Encoding.ripTarget (e : Encoding) (m : Memory) (ip : Word) : Word :=
  e.next m ip + (ripDisp m (e.tail ip)).signExtend 64

/-- The instruction at an address has an operand relative to the instruction pointer that is
reported, in 64-bit addresses and without a segment. -/
structure Encoding.AccessesRip (e : Encoding) (m : Memory) (ip : Word) : Prop where
  held : e.HeldAt m ip
  reports : (e.entry (m (e.tail ip))).ReportsModRM
  form : IsRipForm (m (e.tail ip))
  wide : 0x67 ∉ e.prefixes
  noSegment : 0x64 ∉ e.prefixes ∧ 0x65 ∉ e.prefixes
  notInvlpg : ¬(e.twobyte = true ∧ e.opcode = 0x01 ∧
    extendReg (e.rex.getLsbD 2) (regField (m (e.tail ip))) = 7)

/-! ## The decoder -/

namespace DecodeCache

/-- The operand register with its REX bit is five only without that bit. -/
theorem regByte_five : ∀ (bit : Bool) (b : Byte), rmField b = 5 →
    (regByte bit (rmField b) = 5 ↔ bit = false) := by decide

/-- The ModRM operand: REX.B keeps the decoder from the displacement. -/
theorem modrm64_of_rip {m : Memory} {c : DecodeCache} {a : Word} {rexB : Bool}
    (here : c.eip = a + 1#64) (fresh : c.modrmEa = 0)
    (mod : c.modrmMod = BitVec.ofNat 8 (modField (m a)))
    (rm : c.modrmRm = regByte rexB (rmField (m a))) (form : IsRipForm (m a))
    (indexReg baseReg : Byte) :
    c.modrm64 m indexReg baseReg = { c with
      ripRelative := true
      modrmEa := if rexB then 0 else m.read (a + 1#64) 4
      eip := if rexB then a + 1#64 else a + 5#64 } := by
  have low (k : Fin 8) : c.modrmRm &&& 7 = BitVec.ofNat 8 k ↔ rmField (m a) = k := by
    rw [rm]
    exact rm_low_eq_iff rexB (m a) k
  have four : ¬c.modrmRm &&& 7 = 4 := fun same => by
    have field : rmField (m a) = 4 := (low 4).mp same
    exact absurd (form.2.symm.trans field) (by decide)
  have five : c.modrmRm &&& 7 = 5 := (low 5).mpr form.2
  have zero : c.modrmMod = 0 := by
    rw [mod, form.1]
    rfl
  have exactly : c.modrmRm = 5 ↔ rexB = false := by
    rw [rm]
    exact regByte_five rexB (m a) form.2
  have after : a + 1#64 + BitVec.ofNat 64 4 = a + 5#64 := by
    rw [BitVec.add_assoc]
    rfl
  have named : c.modrm64 m indexReg baseReg = ({ c with ripRelative := true }).decodeDisp m := by
    rw [modrm64, if_neg four, if_pos ⟨five, zero⟩]
  rw [named, decodeDisp]
  cases rexB with
  | true =>
    have other : ¬c.modrmRm = 5 := fun same => absurd (exactly.mp same) (by decide)
    rw [if_pos zero, if_neg other, if_pos rfl, if_pos rfl, ← here, ← fresh]
  | false =>
    have same : c.modrmRm = 5 := exactly.mpr rfl
    rw [if_pos zero, if_pos same, addFetch, fetch]
    simp only [here, fresh, after, Bool.false_eq_true, if_false]
    congr 1
    exact BitVec.zero_add _

/-- What the cache holds when a RIP-relative operand has been passed. -/
theorem address_rip {m : Memory} {regs : PtRegs} {e : Encoding} {segSet : Bool} {seg : Byte}
    (modRM : (e.entry (m (e.tail regs.ip))).has Op.modRM = true)
    (form : IsRipForm (m (e.tail regs.ip))) :
    (afterLookup m regs e segSet seg).address m regs =
      let c := afterLookup m regs e segSet seg
      { afterModRMByte m c with
        opBytes := c.stackBytes
        hasSegOverride := true
        segOverride := if segSet then seg else 3
        ripRelative := true
        modrmEa := if e.rex.getLsbD 0 then e.tail regs.ip + 1#64
          else m.read (e.tail regs.ip + 1#64) 4 + (e.tail regs.ip + 5#64)
        eip := if e.rex.getLsbD 0 then e.tail regs.ip + 1#64 else e.tail regs.ip + 5#64 } := by
  let c : DecodeCache := { afterLookup m regs e segSet seg with
    opBytes := (afterLookup m regs e segSet seg).stackBytes }
  have adBytes : ¬c.adBytes = 2 := e.adBytes_ne_two
  have notReg : modField (m c.eip) ≠ 3 := by
    have zero : modField (m c.eip) = 0 := form.1
    rw [zero]
    decide
  have rm : (afterModRMByte m c).modrmRm =
      regByte (c.rexPrefix.getLsbD 0) (rmField (m c.eip)) := rfl
  have passed := decodeModRM_cases m regs (c := c) rfl rfl rfl
  rw [if_neg notReg, if_neg adBytes,
    modrm64_of_rip (a := c.eip) rfl rfl rfl rm form] at passed
  -- The address is cut before the instruction pointer is added, and a displacement is no longer.
  have cut (addr32 : Bool) : truncateAddress addr32 (m.read (e.tail regs.ip + 1#64) 4) =
      m.read (e.tail regs.ip + 1#64) 4 := by
    cases addr32 with
    | false => rfl
    | true => exact m.setWidth_read _ 4
  have cutZero (addr32 : Bool) : truncateAddress addr32 0 = 0 := by
    cases addr32 <;> rfl
  have here : c.eip = e.tail regs.ip := rfl
  have rex : c.rexPrefix.getLsbD 0 = e.rex.getLsbD 0 := rfl
  rw [address_of_modRM m regs modRM, passed, finishEa_eq]
  simp only [here, rex]
  cases e.rex.getLsbD 0 with
  | true =>
    have fromZero (next : Word) : 0 + next = next := BitVec.zero_add next
    simp only [if_true, cutZero, fromZero]
    rfl
  | false =>
    simp only [Bool.false_eq_true, if_false, if_true, cut]
    rfl

end DecodeCache

/-- What the address stage finds of a ModRM byte: whether it names a register, whether it is that
of invlpg, and the register that it names besides. -/
theorem address_fields {m : Memory} {regs : PtRegs} {e : Encoding} (segSet : Bool) (seg : Byte)
    (modRM : (e.entry (m (e.tail regs.ip))).has Op.modRM = true) :
    let c := (DecodeCache.afterLookup m regs e segSet seg).address m regs
    (c.modrmMod = 3 ↔ modField (m (e.tail regs.ip)) = 3) ∧
      (c.IsInvlpg ↔ e.twobyte = true ∧ e.opcode = 0x01 ∧
        extendReg (e.rex.getLsbD 2) (regField (m (e.tail regs.ip))) = 7) ∧
      c.modrmReg.toNat = extendReg (e.rex.getLsbD 2) (regField (m (e.tail regs.ip))) := by
  have three := mod_eq_iff (m (e.tail regs.ip)) 3
  have seven := regByte_eq_iff (e.rex.getLsbD 2) (m (e.tail regs.ip)) (k := 7) (by decide)
  have number := index_toNat (e.rex.getLsbD 2) (m (e.tail regs.ip))
  have exempt := and_congr_right fun _ : e.twobyte = true =>
    and_congr_right fun _ : e.opcode = 0x01 => seven
  by_cases register : modField (m (e.tail regs.ip)) = 3
  · rw [DecodeCache.address_register modRM register]
    exact ⟨three, exempt, number⟩
  · by_cases rip : IsRipForm (m (e.tail regs.ip))
    · rw [DecodeCache.address_rip modRM rip]
      exact ⟨three, exempt, number⟩
    · rw [DecodeCache.address_modRM modRM ⟨register, rip⟩]
      exact ⟨three, exempt, number⟩

/-- `yy_get_memory_access` on an instruction whose operand is relative to the instruction
pointer. -/
theorem yyGetMemoryAccess_rip {m : Memory} {regs : PtRegs} {e : Encoding} (out : Access)
    (accesses : e.AccessesRip m regs.ip) :
    ∃ acc, yyGetMemoryAccess m regs out = some acc ∧
      acc.dataAddr 0 = if e.rex.getLsbD 0 then e.tail regs.ip + 1#64
        else m.read (e.tail regs.ip + 1#64) 4 + (e.tail regs.ip + 5#64) := by
  have reports := accesses.reports
  have alone := e.modRMAlone (m (e.tail regs.ip))
  obtain ⟨segSet, seg, decoded⟩ := yyGetMemoryAccess_decoded out accesses.held
    (e.isOpcode_of_modRM reports.modRM) (described_of_modRM reports.modRM)
  refine ⟨_, decoded, ?_⟩
  rw [DecodeCache.address_rip reports.modRM accesses.form]
  generalize same : ({ DecodeCache.afterModRMByte m (.afterLookup m regs e segSet seg) with
    opBytes := _, hasSegOverride := true, segOverride := _, ripRelative := true, modrmEa := _,
    eip := _ } : DecodeCache) = c
  have entry : c.d = e.entry (m (e.tail regs.ip)) := by
    rw [← same]
    rfl
  have blank : c.src.type ≠ .OP_MEM ∧ c.src2.type ≠ .OP_MEM := by
    rw [← same]
    exact ⟨nofun, nofun⟩
  have memory : c.modrmMod ≠ 3 := by
    rw [← same]
    intro three
    have mod := (mod_eq_iff (m (e.tail regs.ip)) 3).mp three
    exact absurd (accesses.form.1.symm.trans mod) (by decide)
  have notInvlpg : ¬c.IsInvlpg := by
    rw [← same]
    intro invlpg
    have seven := (regByte_eq_iff _ (m (e.tail regs.ip)) (k := 7) (by decide)).mp invlpg.2.2
    exact accesses.notInvlpg ⟨invlpg.1, invlpg.2.1, seven⟩
  rw [← entry] at reports alone
  rw [DecodeCache.result_dataAddr _ reports alone,
    DecodeCache.reportOperand_modRM _ blank.1 blank.2 reports alone memory notInvlpg, ← same]

/-! ## The reported address -/

/-- A number that is read without its sign is a little more than with it only if it is the
same and not negative. -/
theorem setWidth_eq_add_signExtend_iff (x : BitVec 32) {n : Nat} (small : n < 2 ^ 32) :
    x.setWidth 64 = BitVec.ofNat 64 n + x.signExtend 64 ↔ x.msb = false ∧ n = 0 := by
  have inside := x.isLt
  rw [← BitVec.toNat_inj, BitVec.toNat_add, BitVec.toNat_signExtend, BitVec.toNat_setWidth,
    BitVec.toNat_ofNat]
  cases x.msb with
  | true =>
    simp only [if_true, Bool.true_eq_false, false_and, iff_false]
    omega
  | false =>
    simp only [Bool.false_eq_true, if_false, true_and]
    omega

/-- A displacement leads from the end of an instruction to the byte after its ModRM byte just when
it is minus the bytes between them. -/
theorem one_eq_add_signExtend_iff (x : BitVec 32) {n : Nat} (few : n ≤ 4) :
    1#64 = 5#64 + BitVec.ofNat 64 n + x.signExtend 64 ↔ x.toInt = -(4 + n) := by
  have inside := x.isLt
  rw [← BitVec.toNat_inj, BitVec.toNat_add, BitVec.toNat_add, BitVec.toNat_signExtend,
    BitVec.toNat_setWidth, BitVec.toNat_ofNat, BitVec.toNat_ofNat, BitVec.toNat_ofNat,
    BitVec.toInt_eq_msb_cond]
  cases x.msb with
  | true =>
    simp only [if_true]
    omega
  | false =>
    simp only [Bool.false_eq_true, if_false]
    omega

/-- The decoder reports the address that the operand names exactly when, without REX.B, no
immediate follows and the displacement is not negative, and when, with REX.B, the operand is the
byte after the ModRM byte. -/
theorem rip_address_iff (m : Memory) (regs : PtRegs) (out : Access) (e : Encoding)
    (accesses : e.AccessesRip m regs.ip) :
    ∃ acc, yyGetMemoryAccess m regs out = some acc ∧
      (acc.dataAddr 0 = e.ripTarget m regs.ip ↔
        if e.rex.getLsbD 0 then
          (ripDisp m (e.tail regs.ip)).toInt = -(4 + e.immediateBytes (m (e.tail regs.ip)))
        else
          e.immediateBytes (m (e.tail regs.ip)) = 0 ∧
            (ripDisp m (e.tail regs.ip)).msb = false) := by
  obtain ⟨acc, decoded, reported⟩ := yyGetMemoryAccess_rip out accesses
  refine ⟨acc, decoded, ?_⟩
  have few := e.immediateBytes_le (m (e.tail regs.ip))
  rw [reported, Encoding.ripTarget, Encoding.next]
  generalize e.immediateBytes (m (e.tail regs.ip)) = n at few ⊢
  cases e.rex.getLsbD 0 with
  | true =>
    simp only [if_true]
    rw [BitVec.add_assoc, BitVec.add_assoc, BitVec.add_right_inj, ← BitVec.add_assoc,
      one_eq_add_signExtend_iff _ few]
  | false =>
    have read : m.read (e.tail regs.ip + 1#64) 4 = (ripDisp m (e.tail regs.ip)).setWidth 64 :=
      (m.setWidth_read (e.tail regs.ip + 1#64) 4).symm
    simp only [Bool.false_eq_true, if_false]
    rw [read, BitVec.add_comm, BitVec.add_assoc (e.tail regs.ip + 5#64), BitVec.add_right_inj,
      setWidth_eq_add_signExtend_iff _ (by omega), and_comm]

/-- `mov 0x10(%rip), %eax`, and the same load from sixteen bytes before its end. -/
def ripLoad : Encoding := { prefixes := [], twobyte := false, opcode := 0x8b }

/-- The memory with the load from behind the instruction. -/
def ripLoadAt : Memory := .ofBytes 0x1000 [0x8b, 0x05, 0x10, 0x00, 0x00, 0x00]

/-- The memory with the load from before the instruction. -/
def ripLoadBackAt : Memory := .ofBytes 0x1000 [0x8b, 0x05, 0xf0, 0xff, 0xff, 0xff]

/-- Registers before either load. -/
def ripLoadRegs : PtRegs := { (default : PtRegs) with ip := 0x1000 }

/-- A load from behind the instruction pointer is reported at its target. -/
theorem rip_address_iff_forward :
    ∃ acc, yyGetMemoryAccess ripLoadAt ripLoadRegs ⟨0, 0, fun _ => false⟩ = some acc ∧
      acc.dataAddr 0 = ripLoad.ripTarget ripLoadAt 0x1000 := by
  obtain ⟨acc, decoded, agree⟩ := rip_address_iff ripLoadAt ripLoadRegs ⟨0, 0, fun _ => false⟩
    ripLoad ⟨by decide, by decide, by decide, by decide, by decide, by decide⟩
  exact ⟨acc, decoded, agree.mpr (by decide)⟩

/-- A load from before the instruction pointer is reported 2 ^ 32 bytes above its target. -/
theorem rip_address_negative :
    ripLoad.AccessesRip ripLoadBackAt ripLoadRegs.ip ∧
      (yyGetMemoryAccess ripLoadBackAt ripLoadRegs ⟨0, 0, fun _ => false⟩).map (·.dataAddr 0)
        = some (0x1006 + 0xfffffff0) ∧
      ripLoad.ripTarget ripLoadBackAt 0x1000 = 0x1006 - 0x10 ∧
      (0x1006 + 0xfffffff0 : Word) ≠ 0x1006 - 0x10 :=
  ⟨⟨by decide, by decide, by decide, by decide, by decide, by decide⟩, by decide, by decide,
    by decide⟩

end Drddr
