import Drddr.Disasm.Lookup

/-!
# The address of a ModRM operand

The decoder's arithmetic on a ModRM byte of a memory form and on the bytes after it: base and
scaled index as the encoding names them, and the displacement as the bytes stand there,
zero-extended.
-/

namespace Drddr

open Machine

/-! ## Fields as the decoder takes them -/

/-- A register number as the decoder assembles it. -/
def regByte (bit : Bool) (low : Nat) : Byte := BitVec.ofNat 8 (extendReg bit low)

/-- REX.R, shifted into its place, is the high bit of a register byte. -/
theorem rexR_eq : ∀ rex : Byte,
    (if rex ≠ 0 then (rex &&& 4) <<< 1 else 0) = regByte (rex.getLsbD 2) 0 := by decide

/-- REX.X, shifted into its place, is the high bit of a register byte. -/
theorem rexX_eq : ∀ rex : Byte,
    (if rex ≠ 0 then (rex &&& 2) <<< 2 else 0) = regByte (rex.getLsbD 1) 0 := by decide

/-- REX.B, shifted into its place, is the high bit of a register byte. -/
theorem rexB_eq : ∀ rex : Byte,
    (if rex ≠ 0 then (rex &&& 1) <<< 3 else 0) = regByte (rex.getLsbD 0) 0 := by decide

/-- The mode bits of a ModRM byte are its mode field. -/
theorem mod_eq : ∀ modrm : Byte,
    0 ||| (modrm &&& 0xc0) >>> 6 = BitVec.ofNat 8 (modField modrm) := by decide

/-- The register bits of a ModRM byte stand below the REX bit. -/
theorem reg_eq : ∀ (bit : Bool) (modrm : Byte),
    regByte bit 0 ||| (modrm &&& 0x38) >>> 3 = regByte bit (regField modrm) := by decide

/-- The operand bits of a ModRM byte stand below the REX bit. -/
theorem rm_eq : ∀ (bit : Bool) (modrm : Byte),
    regByte bit 0 ||| modrm &&& 0x07 = regByte bit (rmField modrm) := by decide

/-- The index bits of a SIB byte stand below the REX bit. -/
theorem index_eq : ∀ (bit : Bool) (sib : Byte),
    regByte bit 0 ||| (sib >>> 3) &&& 7 = regByte bit (regField sib) := by decide

/-- The scale of a SIB byte is its mode field. -/
theorem scale_eq : ∀ sib : Byte, (sib >>> 6).toNat = modField sib := by decide

/-- A test of the mode bits is one of the mode field. -/
theorem mod_eq_iff : ∀ (b : Byte) (k : Fin 4),
    BitVec.ofNat 8 (modField b) = BitVec.ofNat 8 k ↔ modField b = k := by decide

/-- A test of the operand bits without the REX bit is one of the operand field. -/
theorem rm_low_eq_iff : ∀ (bit : Bool) (b : Byte) (k : Fin 8),
    regByte bit (rmField b) &&& 7 = BitVec.ofNat 8 k ↔ rmField b = k := by decide

/-- An operand that is five with the REX bit has five in its operand field. -/
theorem rm_eq_five : ∀ (bit : Bool) (b : Byte),
    regByte bit (rmField b) = 5 → rmField b = 5 := by decide

/-- A test of the register or index bits and the REX bit is one of the extended number. -/
theorem regByte_eq_iff (bit : Bool) (b : Byte) {k : Nat} (small : k < 16) :
    regByte bit (regField b) = BitVec.ofNat 8 k ↔ extendReg bit (regField b) = k := by
  have bound : extendReg bit (regField b) < 16 := by
    unfold extendReg regField
    split <;> omega
  constructor
  · intro same
    have value := congrArg BitVec.toNat same
    rw [regByte, BitVec.toNat_ofNat, BitVec.toNat_ofNat] at value
    omega
  · intro same
    rw [regByte, same]

/-- An operand number indexes the register it names. -/
theorem rm_toNat : ∀ (bit : Bool) (b : Byte),
    (regByte bit (rmField b)).toNat = extendReg bit (rmField b) := by decide

/-- An index number indexes the register it names. -/
theorem index_toNat : ∀ (bit : Bool) (b : Byte),
    (regByte bit (regField b)).toNat = extendReg bit (regField b) := by decide

namespace DecodeCache

/-! ## The ModRM byte and what follows it -/

/-- A fetch of no bytes changes nothing. -/
@[simp] theorem addFetch_zero (m : Memory) (c : DecodeCache) : c.addFetch m 0 = c := by
  simp [addFetch, fetch, Memory.read]

/-- The displacement that goes with the mode, unless the operand is relative to the
instruction pointer. -/
theorem decodeDisp_eq (m : Memory) {c : DecodeCache} {modrm : Byte}
    (mod : c.modrmMod = BitVec.ofNat 8 (modField modrm))
    (notRip : ¬(modField modrm = 0 ∧ c.modrmRm = 5)) :
    c.decodeDisp m = c.addFetch m (dispBytes (modField modrm)) := by
  have mode (k : Fin 4) : c.modrmMod = BitVec.ofNat 8 k ↔ modField modrm = k := by
    rw [mod]
    exact mod_eq_iff modrm k
  have zero : c.modrmMod = 0 ↔ modField modrm = 0 := mode 0
  have one : c.modrmMod = 1 ↔ modField modrm = 1 := mode 1
  have two : c.modrmMod = 2 ↔ modField modrm = 2 := mode 2
  simp only [decodeDisp, zero, one, two, dispBytes]
  by_cases none : modField modrm = 0
  · have other : c.modrmRm ≠ 5 := fun five => notRip ⟨none, five⟩
    rw [if_pos none, if_neg other, if_neg (by omega), if_neg (by omega), addFetch_zero]
  · rw [if_neg none]
    by_cases short : modField modrm = 1
    · rw [if_pos short, if_pos short]
    · by_cases long : modField modrm = 2
      · rw [if_neg short, if_pos long, if_neg short, if_pos long]
      · rw [if_neg short, if_neg long, if_neg short, if_neg long, addFetch_zero]

/-- The displacement is decoded in the same way when address and position have moved on. -/
theorem decodeDisp_at (m : Memory) {c : DecodeCache} {modrm : Byte}
    (mod : c.modrmMod = BitVec.ofNat 8 (modField modrm))
    (notRip : ¬(modField modrm = 0 ∧ c.modrmRm = 5)) (ea eip : Word) :
    decodeDisp m { c with modrmEa := ea, eip } = { c with
      modrmEa := ea + m.read eip (dispBytes (modField modrm))
      eip := eip + BitVec.ofNat 64 (dispBytes (modField modrm)) } :=
  decodeDisp_eq m (c := { c with modrmEa := ea, eip }) mod notRip

/-- The SIB byte: base, scaled index, and the displacement that stands for a base. -/
theorem decodeSib_eq {m : Memory} {c : DecodeCache} {modrm : Byte} (bitX bitB : Bool)
    (mod : c.modrmMod = BitVec.ofNat 8 (modField modrm)) :
    c.decodeSib m (regByte bitX 0) (regByte bitB 0) =
      let sib := m c.eip
      let absolute := rmField sib = 5 ∧ modField modrm = 0
      let size := if absolute then 4 else 0
      let base := if absolute then m.read (c.eip + 1#64) 4
        else c.regs (extendReg bitB (rmField sib))
      let index := extendReg bitX (regField sib)
      { c with
        modrmEa := c.modrmEa + base + if index = 4 then 0 else c.regs index <<< modField sib
        eip := c.eip + 1#64 + BitVec.ofNat 64 size } := by
  have zero : c.modrmMod = 0 ↔ modField modrm = 0 := by
    rw [mod]
    exact mod_eq_iff modrm 0
  have five : regByte bitB (rmField (m c.eip)) &&& 7 = 5 ↔ rmField (m c.eip) = 5 :=
    rm_low_eq_iff bitB (m c.eip) 5
  have four : regByte bitX (regField (m c.eip)) = 4 ↔ extendReg bitX (regField (m c.eip)) = 4 :=
    regByte_eq_iff bitX (m c.eip) (by decide)
  have baseReg : regByte bitB 0 ||| m c.eip &&& 7 = regByte bitB (rmField (m c.eip)) :=
    rm_eq bitB (m c.eip)
  simp only [decodeSib, fetchByte, index_eq, baseReg, scale_eq, five, zero, ne_eq, four,
    rm_toNat, index_toNat, addFetch, fetch]
  by_cases absolute : rmField (m c.eip) = 5 ∧ modField modrm = 0 <;>
    by_cases none : extendReg bitX (regField (m c.eip)) = 4 <;>
    simp [absolute, none]

/-- The decoder computes an address of four or eight bytes with a SIB byte from base, scaled index
and displacement. -/
theorem modrm64_of_sib {m : Memory} {regs : PtRegs} {c : DecodeCache} {a : Word} {rex : Byte}
    (file : c.regs = regs.gpr) (here : c.eip = a + 1#64) (fresh : c.modrmEa = 0)
    (mod : c.modrmMod = BitVec.ofNat 8 (modField (m a)))
    (rm : c.modrmRm = regByte (rex.getLsbD 0) (rmField (m a))) (sib : rmField (m a) = 4) :
    c.modrm64 m (regByte (rex.getLsbD 1) 0) (regByte (rex.getLsbD 0) 0) =
      let f := addressForm m rex a
      { c with modrmEa := f.registers regs + f.dispRead m, eip := f.next } := by
  have four : c.modrmRm &&& 7 = 4 := by
    rw [rm]
    exact (rm_low_eq_iff _ (m a) 4).mpr sib
  have notRip : ¬(modField (m a) = 0 ∧ c.modrmRm = 5) := by
    intro both
    rw [rm] at both
    have five := rm_eq_five _ _ both.2
    omega
  have after : a + 1#64 + 1#64 = a + 2#64 := by
    rw [BitVec.add_assoc]
    rfl
  have named : c.modrm64 m (regByte (rex.getLsbD 1) 0) (regByte (rex.getLsbD 0) 0)
      = (c.decodeSib m (regByte (rex.getLsbD 1) 0) (regByte (rex.getLsbD 0) 0)).decodeDisp m := by
    simp only [modrm64, four, if_true]
  have passed := decodeSib_eq (m := m) (rex.getLsbD 1) (rex.getLsbD 0) mod
  by_cases absolute : rmField (m (a + 1#64)) = 5 ∧ modField (m a) = 0
  · simp only [here, fresh, absolute, and_self, if_true] at passed
    rw [named, passed, decodeDisp_at m mod notRip]
    simp only [addressForm, sib, absolute, and_self, if_true, AddressForm.registers,
      AddressForm.baseValue, AddressForm.indexValue, AddressForm.dispRead, AddressForm.next,
      dispBytes, file, after]
    generalize extendReg (rex.getLsbD 1) (regField (m (a + 1#64))) = index
    by_cases none : index = 4 <;> simp [none, Memory.read, BitVec.add_comm]
  · simp only [here, fresh, absolute, if_false] at passed
    rw [named, passed, decodeDisp_at m mod notRip]
    simp only [addressForm, sib, absolute, if_true, if_false, AddressForm.registers,
      AddressForm.baseValue, AddressForm.indexValue, AddressForm.dispRead, AddressForm.next,
      file, after]
    generalize extendReg (rex.getLsbD 1) (regField (m (a + 1#64))) = index
    by_cases none : index = 4 <;> simp [none]

/-- The decoder computes an address of four or eight bytes without a SIB byte from base and
displacement. -/
theorem modrm64_of_base {m : Memory} {regs : PtRegs} {c : DecodeCache} {a : Word} {rex : Byte}
    (file : c.regs = regs.gpr) (here : c.eip = a + 1#64) (fresh : c.modrmEa = 0)
    (mod : c.modrmMod = BitVec.ofNat 8 (modField (m a)))
    (rm : c.modrmRm = regByte (rex.getLsbD 0) (rmField (m a))) (noSib : rmField (m a) ≠ 4)
    (form : IsMemoryForm (m a)) (indexReg baseReg : Byte) :
    c.modrm64 m indexReg baseReg =
      let f := addressForm m rex a
      { c with modrmEa := f.registers regs + f.dispRead m, eip := f.next } := by
  have four : ¬c.modrmRm &&& 7 = 4 := by
    rw [rm]
    exact fun same => noSib ((rm_low_eq_iff _ (m a) 4).mp same)
  have relative : ¬(c.modrmRm &&& 7 = 5 ∧ c.modrmMod = 0) := by
    intro both
    rw [rm, mod] at both
    exact form.2 ⟨(mod_eq_iff (m a) 0).mp both.2, (rm_low_eq_iff _ (m a) 5).mp both.1⟩
  have notRip : ¬(modField (m a) = 0 ∧ c.modrmRm = 5) := by
    intro both
    rw [rm] at both
    exact form.2 ⟨both.1, rm_eq_five _ _ both.2⟩
  have number : c.modrmRm.toNat = extendReg (rex.getLsbD 0) (rmField (m a)) := by
    rw [rm]
    exact rm_toNat _ (m a)
  have named : c.modrm64 m indexReg baseReg
      = ({ c with modrmEa := c.modrmEa + c.regs c.modrmRm.toNat }).decodeDisp m := by
    simp only [modrm64, four, relative, if_false]
  rw [named, decodeDisp_at m mod notRip]
  simp only [addressForm, noSib, if_false, AddressForm.registers, AddressForm.baseValue,
    AddressForm.indexValue, AddressForm.dispRead, AddressForm.next, here, fresh, file, number]
  simp

/-- What the cache holds when the ModRM byte has been passed. -/
def afterModRMByte (m : Memory) (c : DecodeCache) : DecodeCache :=
  { c with
    modrm := m c.eip
    modrmMod := BitVec.ofNat 8 (modField (m c.eip))
    modrmReg := regByte (c.rexPrefix.getLsbD 2) (regField (m c.eip))
    modrmRm := regByte (c.rexPrefix.getLsbD 0) (rmField (m c.eip))
    modrmEa := 0
    eip := c.eip + 1#64 }

/-- Before the ModRM byte the register numbers hold the bits of REX. -/
theorem rexBits_eq {c : DecodeCache} (reg : c.modrmReg = 0) (rm : c.modrmRm = 0) :
    (if c.rexPrefix ≠ 0 then { c with
        modrmReg := (c.rexPrefix &&& 4) <<< 1
        modrmRm := regByte (c.rexPrefix.getLsbD 0) 0 } else c)
      = { c with
        modrmReg := regByte (c.rexPrefix.getLsbD 2) 0
        modrmRm := regByte (c.rexPrefix.getLsbD 0) 0 } := by
  by_cases none : c.rexPrefix = 0
  · have absent : regByte false 0 = 0 := rfl
    have bit (i : Nat) : c.rexPrefix.getLsbD i = false := by
      rw [none]
      exact BitVec.getLsbD_zero
    rw [if_neg (not_not.mpr none), bit, bit, absent]
    cases c
    subst reg rm
    rfl
  · rw [if_pos none, ← rexR_eq, if_pos none]

/-- The ModRM byte, and the case split on what it says. -/
theorem decodeModRM_cases (m : Memory) (regs : PtRegs) {c : DecodeCache} (mod : c.modrmMod = 0)
    (reg : c.modrmReg = 0) (rm : c.modrmRm = 0) :
    c.decodeModRM m regs =
      if modField (m c.eip) = 3 then afterModRMByte m c
      else if c.adBytes = 2 then (afterModRMByte m c).modrm16 m regs
      else (afterModRMByte m c).modrm64 m (regByte (c.rexPrefix.getLsbD 1) 0)
        (regByte (c.rexPrefix.getLsbD 0) 0) := by
  have three : BitVec.ofNat 8 (modField (m c.eip)) = 3 ↔ modField (m c.eip) = 3 :=
    mod_eq_iff (m c.eip) 3
  have bits : c.modrmMod ||| (m c.eip &&& 0xc0) >>> 6 = BitVec.ofNat 8 (modField (m c.eip)) := by
    rw [mod]
    exact mod_eq (m c.eip)
  simp only [decodeModRM, rexX_eq, rexB_eq, rexBits_eq reg rm]
  simp only [fetchByte, bits, reg_eq, rm_eq, three]
  rfl

/-- What the cache holds when a ModRM operand in memory has been passed. -/
def afterModRM (m : Memory) (regs : PtRegs) (c : DecodeCache) : DecodeCache :=
  let f := addressForm m c.rexPrefix c.eip
  { afterModRMByte m c with modrmEa := f.registers regs + f.dispRead m, eip := f.next }

/-- The whole of a ModRM operand in memory is decoded in one step. -/
theorem decodeModRM_eq {m : Memory} {regs : PtRegs} {c : DecodeCache} (file : c.regs = regs.gpr)
    (mod : c.modrmMod = 0) (reg : c.modrmReg = 0) (rm : c.modrmRm = 0) (wide : c.adBytes ≠ 2)
    (form : IsMemoryForm (m c.eip)) : c.decodeModRM m regs = afterModRM m regs c := by
  have passed : (afterModRMByte m c).regs = regs.gpr := file
  rw [decodeModRM_cases m regs mod reg rm, if_neg form.1, if_neg wide]
  by_cases sib : rmField (m c.eip) = 4
  · rw [modrm64_of_sib (a := c.eip) passed rfl rfl rfl rfl sib]
    rfl
  · rw [modrm64_of_base (a := c.eip) passed rfl rfl rfl rfl sib form]
    rfl

/-! ## The finished address -/

/-- The address is cut to its size; the instruction pointer is added to a relative one. -/
theorem finishEa_eq (c : DecodeCache) :
    c.finishEa = { c with
      hasSegOverride := true
      segOverride := if c.hasSegOverride then c.segOverride else 3
      modrmEa := truncateAddress (decide (c.adBytes ≠ 8)) c.modrmEa
        + if c.ripRelative then c.eip else 0 } := by
  have noBase (seg : Byte) (ea : Word) : ea + yySegBase seg = ea := BitVec.add_zero ea
  obtain ⟨twobyte, b, opBytes, adBytes, rex, src, src2, dst, segSet, seg, d, file, eip, modrm, mod,
    reg, rm, rip, ea⟩ := c
  cases segSet <;> cases rip <;> by_cases size : adBytes = 8 <;>
    simp [finishEa, setSegOverride, noBase, truncateAddress, size]

/-- The finished address of an operand that is not relative to the instruction pointer. -/
theorem finishEa_of_not_rip {c : DecodeCache} {addr32 : Bool}
    (size : decide (c.adBytes ≠ 8) = addr32) (notRip : c.ripRelative = false) :
    c.finishEa = { c with
      hasSegOverride := true
      segOverride := if c.hasSegOverride then c.segOverride else 3
      modrmEa := truncateAddress addr32 c.modrmEa } := by
  have toEnd (ea : Word) : ea + 0 = ea := BitVec.add_zero ea
  rw [finishEa_eq, size, notRip]
  simp only [Bool.false_eq_true, if_false, toEnd]

/-- The operand size of the instruction, when a stack instruction has replaced it. -/
def stackBytes (c : DecodeCache) : Nat := if c.d.has Op.stack then 8 else c.opBytes

/-- A stack instruction changes the operand size and nothing else. -/
theorem stackSize_eq (c : DecodeCache) : c.stackSize = { c with opBytes := c.stackBytes } := by
  simp only [stackSize, stackBytes]
  split <;> rfl

/-- The address stage of an instruction with a ModRM byte decodes that byte and finishes the
address. -/
theorem address_of_modRM (m : Memory) (regs : PtRegs) {c : DecodeCache}
    (modRM : c.d.has Op.modRM = true) :
    c.address m regs = (decodeModRM m { c with opBytes := c.stackBytes } regs).finishEa := by
  rw [address, stackSize_eq]
  exact congrArg finishEa (if_pos modRM)

/-- The address stage of an operand in a register: there is no address. -/
theorem address_register {m : Memory} {regs : PtRegs} {e : Encoding} {segSet : Bool} {seg : Byte}
    (modRM : (e.entry (m (e.tail regs.ip))).has Op.modRM = true)
    (register : modField (m (e.tail regs.ip)) = 3) :
    (afterLookup m regs e segSet seg).address m regs =
      let c := afterLookup m regs e segSet seg
      { afterModRMByte m c with
        opBytes := c.stackBytes
        hasSegOverride := true
        segOverride := if segSet then seg else 3 } := by
  let c : DecodeCache := { afterLookup m regs e segSet seg with
    opBytes := (afterLookup m regs e segSet seg).stackBytes }
  have passed : c.decodeModRM m regs = afterModRMByte m c := by
    rw [decodeModRM_cases m regs rfl rfl rfl]
    exact if_pos register
  have size : decide ((afterModRMByte m c).adBytes ≠ 8) = e.addr32 := e.adBytes_ne_eight
  have zero : truncateAddress e.addr32 (afterModRMByte m c).modrmEa = 0 := by
    cases e.addr32 <;> rfl
  rw [address_of_modRM m regs modRM, passed, finishEa_of_not_rip size rfl, zero]
  rfl

/-- The address stage of an instruction with a ModRM operand in memory leaves the address of the
operand. -/
theorem address_modRM {m : Memory} {regs : PtRegs} {e : Encoding} {segSet : Bool} {seg : Byte}
    (modRM : (e.entry (m (e.tail regs.ip))).has Op.modRM = true)
    (form : IsMemoryForm (m (e.tail regs.ip))) :
    (afterLookup m regs e segSet seg).address m regs =
      let c := afterLookup m regs e segSet seg
      let f := addressForm m e.rex (e.tail regs.ip)
      { afterModRM m regs c with
        opBytes := c.stackBytes
        hasSegOverride := true
        segOverride := if segSet then seg else 3
        modrmEa := truncateAddress e.addr32 (f.registers regs + f.dispRead m) } := by
  let c : DecodeCache := { afterLookup m regs e segSet seg with
    opBytes := (afterLookup m regs e segSet seg).stackBytes }
  have passed : c.decodeModRM m regs = afterModRM m regs c :=
    decodeModRM_eq rfl rfl rfl rfl e.adBytes_ne_two form
  have size : decide ((afterModRM m regs c).adBytes ≠ 8) = e.addr32 := e.adBytes_ne_eight
  rw [address_of_modRM m regs modRM, passed, finishEa_of_not_rip size rfl]
  rfl

end DecodeCache

end Drddr
