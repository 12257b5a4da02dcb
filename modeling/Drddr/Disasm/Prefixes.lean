import Drddr.Disasm.Phantom

/-!
# The meaning of a prefix string

Of the prefixes before an opcode only three things count: whether the operand size is overridden,
whether the address size is, and which REX prefix stands last. Two instructions that agree in these,
in the opcode and in the bytes of the operand report the same access.
-/

namespace Drddr

open Machine

/-! ## The bytes of an operand -/

/-- The bytes of a ModRM operand: the ModRM byte, the SIB byte and the displacement. -/
def modrmLength (modrm sib : Byte) : Nat :=
  if modField modrm = 3 then 1
  else if rmField modrm = 4 then
    2 + if rmField sib = 5 ∧ modField modrm = 0 then 4 else dispBytes (modField modrm)
  else if modField modrm = 0 ∧ rmField modrm = 5 then 5
  else 1 + dispBytes (modField modrm)

/-- An operand has at least its ModRM byte. -/
theorem modrmLength_pos (modrm sib : Byte) : 1 ≤ modrmLength modrm sib := by
  unfold modrmLength
  split_ifs <;> omega

/-- With a SIB byte there are two bytes before the displacement. -/
theorem two_le_modrmLength {modrm : Byte} (sib : Byte) (form : IsMemoryForm modrm)
    (hasSib : rmField modrm = 4) : 2 ≤ modrmLength modrm sib := by
  rw [modrmLength, if_neg form.1, if_pos hasSib]
  omega

/-- The bytes of an operand of a memory form that come before its displacement. -/
def beforeDisp (modrm : Byte) : Nat := if rmField modrm = 4 then 2 else 1

/-- The displacement stands behind the ModRM byte and the SIB byte. -/
theorem addressForm_dispAt (m : Memory) (rex : Byte) (a : Word) :
    (addressForm m rex a).dispAt = a + BitVec.ofNat 64 (beforeDisp (m a)) := by
  unfold addressForm beforeDisp
  split
  · rfl
  · rfl

/-- The displacement ends the operand. -/
theorem addressForm_dispSize (m : Memory) (rex : Byte) {a : Word} (form : IsMemoryForm (m a)) :
    beforeDisp (m a) + (addressForm m rex a).dispSize = modrmLength (m a) (m (a + 1#64)) := by
  unfold modrmLength addressForm beforeDisp
  rw [if_neg form.1]
  by_cases sib : rmField (m a) = 4
  · rw [if_pos sib, if_pos sib, if_pos sib]
  · rw [if_neg sib, if_neg sib, if_neg sib, if_neg form.2]

/-- The same bytes at another place name the same registers, and a displacement of the same size. -/
theorem addressForm_congr {m m' : Memory} {rex : Byte} {a a' : Word} (form : IsMemoryForm (m a))
    (same : m.SameBytes m' a a' (modrmLength (m a) (m (a + 1#64)))) :
    addressForm m' rex a' =
      { addressForm m rex a with dispAt := a' + BitVec.ofNat 64 (beforeDisp (m a)) } := by
  have modrm : m a = m' a' := by
    simpa using same 0 (modrmLength_pos _ _)
  unfold addressForm beforeDisp
  rw [← modrm]
  by_cases sib : rmField (m a) = 4
  · have next : m (a + 1#64) = m' (a' + 1#64) := same 1 (two_le_modrmLength _ form sib)
    rw [if_pos sib, if_pos sib, if_pos sib, ← next]
  · rw [if_neg sib, if_neg sib, if_neg sib]

/-- The same bytes of an operand at another place name the same address. -/
theorem address_congr (rex : Byte) {m m' : Memory} {a a' : Word} (form : IsMemoryForm (m a))
    (same : m.SameBytes m' a a' (modrmLength (m a) (m (a + 1#64)))) {regs regs' : PtRegs}
    (file : regs'.gpr = regs.gpr) :
    (addressForm m' rex a').registers regs' + (addressForm m' rex a').dispRead m' =
      (addressForm m rex a).registers regs + (addressForm m rex a).dispRead m := by
  have size := addressForm_dispSize m rex form
  have disp : (addressForm m rex a).dispRead m =
      m'.read (a' + BitVec.ofNat 64 (beforeDisp (m a))) (addressForm m rex a).dispSize := by
    rw [AddressForm.dispRead, addressForm_dispAt]
    exact (same.part (by omega)).read
  have registers (f : AddressForm) : f.registers regs' = f.registers regs := by
    unfold AddressForm.registers AddressForm.baseValue AddressForm.indexValue
    rw [file]
  rw [addressForm_congr form same, disp, registers]
  rfl

namespace DecodeCache

/-! ## What the report depends on -/

/-- Two caches agree in all that decides about the report. -/
structure Alike (c c' : DecodeCache) : Prop where
  twobyte : c.twobyte = c'.twobyte
  b : c.b = c'.b
  opBytes : c.opBytes = c'.opBytes
  rexPrefix : c.rexPrefix = c'.rexPrefix
  src : c.src = c'.src
  d : c.d = c'.d
  regs : c.regs = c'.regs
  modrmMod : c.modrmMod = c'.modrmMod
  modrmReg : c.modrmReg = c'.modrmReg
  modrmEa : c.modrmEa = c'.modrmEa

/-- Two caches that agree in all that decides about the report report the same access. -/
theorem Alike.reported {c c' : DecodeCache} (alike : Alike c c') : c.reported = c'.reported := by
  obtain ⟨twobyte, b, opBytes, rexPrefix, src, d, regs, modrmMod, modrmReg, modrmEa⟩ := alike
  cases c
  cases c'
  simp only at twobyte b opBytes rexPrefix src d regs modrmMod modrmReg modrmEa
  subst twobyte b opBytes rexPrefix src d regs modrmMod modrmReg modrmEa
  rfl

/-- The address stage of an instruction without a ModRM byte leaves the absolute address, if the
entry has one. -/
theorem address_absolute {m : Memory} {regs : PtRegs} {e : Encoding} {segSet : Bool} {seg : Byte}
    (noModRM : (e.entry (m (e.tail regs.ip))).has Op.modRM = false) :
    (afterLookup m regs e segSet seg).address m regs =
      let c := afterLookup m regs e segSet seg
      let absolute := (e.entry (m (e.tail regs.ip))).has Op.memAbs
      { c with
        opBytes := c.stackBytes
        eip := if absolute then e.tail regs.ip + BitVec.ofNat 64 e.adBytes else e.tail regs.ip
        hasSegOverride := true
        segOverride := if segSet then seg else 3
        modrmEa := truncateAddress e.addr32
          (if absolute then m.read (e.tail regs.ip) e.adBytes else 0) } := by
  have sized : e.adBytes = 2 ∨ e.adBytes = 4 ∨ e.adBytes = 8 := by
    unfold Encoding.adBytes
    split <;> simp
  let c : DecodeCache := { afterLookup m regs e segSet seg with
    opBytes := (afterLookup m regs e segSet seg).stackBytes }
  have entry : ¬c.d.has Op.modRM = true := by
    rw [Bool.not_eq_true]
    exact noModRM
  have fetched : c.decodeMemAbs m = { c with
      modrmEa := m.read c.eip c.adBytes
      eip := c.eip + BitVec.ofNat 64 c.adBytes } := if_pos sized
  have size : decide (c.adBytes ≠ 8) = e.addr32 := e.adBytes_ne_eight
  rw [address, stackSize_eq]
  change (if c.d.has Op.modRM = true then _
    else if c.d.has Op.memAbs = true then c.decodeMemAbs m else c).finishEa = _
  rw [if_neg entry, fetched]
  cases absolute : c.d.has Op.memAbs with
  | true =>
    have named : (e.entry (m (e.tail regs.ip))).has Op.memAbs = true := absolute
    rw [if_pos rfl, @finishEa_of_not_rip _ e.addr32, named]
    · rfl
    · exact size
    · rfl
  | false =>
    have named : (e.entry (m (e.tail regs.ip))).has Op.memAbs = false := absolute
    rw [if_neg Bool.false_ne_true, finishEa_of_not_rip size rfl, named]
    rfl

end DecodeCache

/-! ## Prefix strings -/

/-- The bytes after the opcode that decide about the access: those of a ModRM operand or of an
absolute address. -/
def Encoding.operandLength (e : Encoding) (modrm sib : Byte) : Nat :=
  if (e.entry modrm).has Op.modRM then modrmLength modrm sib
  else if (e.entry modrm).has Op.memAbs then e.adBytes
  else if e.opcodeEntry.has Op.group then 1
  else 0

/-- Two prefix strings before one opcode agree in what counts. -/
structure Encoding.SamePrefixes (e e' : Encoding) : Prop where
  twobyte : e'.twobyte = e.twobyte
  opcode : e'.opcode = e.opcode
  opSize : e'.opSize = e.opSize
  addr32 : e'.addr32 = e.addr32
  rex : e'.rex = e.rex

namespace Encoding.SamePrefixes

variable {e e' : Encoding} (same : e.SamePrefixes e')

include same

/-- Prefixes that mean the same select the same operand size. -/
theorem opBytes : e'.opBytes = e.opBytes := by
  rw [Encoding.opBytes, Encoding.opBytes, same.rex, same.opSize]

/-- Prefixes that mean the same select the same address size. -/
theorem adBytes : e'.adBytes = e.adBytes := by
  rw [Encoding.adBytes, Encoding.adBytes, same.addr32]

/-- Prefixes that mean the same leave the entry of the opcode. -/
theorem opcodeEntry : e'.opcodeEntry = e.opcodeEntry := by
  rw [Encoding.opcodeEntry, Encoding.opcodeEntry, same.twobyte, same.opcode]

/-- Prefixes that mean the same leave the entry of the instruction. -/
theorem entry (modrm : Byte) : e'.entry modrm = e.entry modrm := by
  rw [Encoding.entry, Encoding.entry, same.opcodeEntry]

/-- An opcode is one after any prefixes. -/
theorem isOpcode (isOpcode : e.IsOpcode) : e'.IsOpcode := by
  unfold IsOpcode at isOpcode ⊢
  rw [same.twobyte, same.opcode]
  exact isOpcode

end Encoding.SamePrefixes

/-- Two instructions at two places, with prefixes that agree in what counts and with the same bytes
after them, on the same registers; neither is relative to the instruction pointer. -/
structure SameTail (m m' : Memory) (regs regs' : PtRegs) (e e' : Encoding) : Prop where
  prefixes : e.SamePrefixes e'
  bytes : m.SameBytes m' (e.tail regs.ip) (e'.tail regs'.ip)
    (e.operandLength (m (e.tail regs.ip)) (m (e.tail regs.ip + 1#64)))
  file : regs'.gpr = regs.gpr
  notRip : (e.entry (m (e.tail regs.ip))).has Op.modRM = true → ¬IsRipForm (m (e.tail regs.ip))

namespace SameTail

variable {m m' : Memory} {regs regs' : PtRegs} {e e' : Encoding}
  (same : SameTail m m' regs regs' e e')

include same

/-- Two instructions of one meaning have the same first byte after the opcode, if it counts. -/
theorem modrm (counts : 1 ≤ e.operandLength (m (e.tail regs.ip)) (m (e.tail regs.ip + 1#64))) :
    m' (e'.tail regs'.ip) = m (e.tail regs.ip) := by
  have byte := same.bytes 0 counts
  simpa using byte.symm

/-- Two instructions of one meaning are looked up to the same entry. -/
theorem entry : e'.entry (m' (e'.tail regs'.ip)) = e.entry (m (e.tail regs.ip)) := by
  rw [same.prefixes.entry]
  cases inGroup : e.opcodeEntry.has Op.group with
  | true =>
    have counts : 1 ≤ e.operandLength (m (e.tail regs.ip)) (m (e.tail regs.ip + 1#64)) := by
      unfold Encoding.operandLength Encoding.adBytes
      have first := modrmLength_pos (m (e.tail regs.ip)) (m (e.tail regs.ip + 1#64))
      split_ifs <;> omega
    rw [same.modrm counts]
  | false =>
    rw [Encoding.entry, Encoding.entry, groupEntry_of_not_group _ inGroup,
      groupEntry_of_not_group _ inGroup]

/-- Two instructions of one meaning have the same bytes in their ModRM operands. -/
theorem modrmBytes (modRM : (e.entry (m (e.tail regs.ip))).has Op.modRM = true) :
    m.SameBytes m' (e.tail regs.ip) (e'.tail regs'.ip)
      (modrmLength (m (e.tail regs.ip)) (m (e.tail regs.ip + 1#64))) := by
  have bytes := same.bytes
  rw [Encoding.operandLength, if_pos modRM] at bytes
  exact bytes

/-- What the lookup finds, with the operand size of the instruction, is the same. -/
theorem alikeLookup (segSet segSet' : Bool) (seg seg' : Byte) :
    let c := DecodeCache.afterLookup m regs e segSet seg
    let c' := DecodeCache.afterLookup m' regs' e' segSet' seg'
    DecodeCache.Alike { c with opBytes := c.stackBytes } { c' with opBytes := c'.stackBytes } := by
  have entry := same.entry
  constructor
  · exact same.prefixes.twobyte.symm
  · exact same.prefixes.opcode.symm
  · simp only [DecodeCache.stackBytes, DecodeCache.afterLookup, entry, same.prefixes.opBytes]
    rfl
  · exact same.prefixes.rex.symm
  · rfl
  · exact entry.symm
  · exact same.file.symm
  · rfl
  · rfl
  · rfl

/-- What the address stage finds is the same. -/
theorem alike (segSet segSet' : Bool) (seg seg' : Byte) :
    DecodeCache.Alike ((DecodeCache.afterLookup m regs e segSet seg).address m regs)
      ((DecodeCache.afterLookup m' regs' e' segSet' seg').address m' regs') := by
  have entry := same.entry
  have lookup := same.alikeLookup segSet segSet' seg seg'
  cases modRM : (e.entry (m (e.tail regs.ip))).has Op.modRM with
  | true =>
    have modRM' : (e'.entry (m' (e'.tail regs'.ip))).has Op.modRM = true := by rw [entry, modRM]
    have bytes := same.modrmBytes modRM
    have modrm : m (e.tail regs.ip) = m' (e'.tail regs'.ip) := by
      simpa using bytes 0 (modrmLength_pos _ _)
    have mod : BitVec.ofNat 8 (modField (m (e.tail regs.ip))) =
        BitVec.ofNat 8 (modField (m' (e'.tail regs'.ip))) := by rw [modrm]
    have reg : regByte (e.rex.getLsbD 2) (regField (m (e.tail regs.ip))) =
        regByte (e'.rex.getLsbD 2) (regField (m' (e'.tail regs'.ip))) := by
      rw [modrm, same.prefixes.rex]
    by_cases register : modField (m (e.tail regs.ip)) = 3
    · have register' : modField (m' (e'.tail regs'.ip)) = 3 := by rw [← modrm, register]
      rw [DecodeCache.address_register modRM register,
        DecodeCache.address_register modRM' register']
      exact { lookup with modrmMod := mod, modrmReg := reg, modrmEa := rfl }
    · have form : IsMemoryForm (m (e.tail regs.ip)) := ⟨register, same.notRip modRM⟩
      have form' : IsMemoryForm (m' (e'.tail regs'.ip)) := modrm ▸ form
      have ea := address_congr e.rex form bytes same.file
      rw [DecodeCache.address_modRM modRM form, DecodeCache.address_modRM modRM' form']
      refine { lookup with modrmMod := mod, modrmReg := reg, modrmEa := ?_ }
      simp only
      rw [same.prefixes.addr32, same.prefixes.rex, ea]
  | false =>
    have modRM' : (e'.entry (m' (e'.tail regs'.ip))).has Op.modRM = false := by rw [entry, modRM]
    rw [DecodeCache.address_absolute modRM, DecodeCache.address_absolute modRM']
    refine { lookup with modrmMod := rfl, modrmReg := rfl, modrmEa := ?_ }
    simp only
    rw [same.prefixes.addr32, entry, same.prefixes.adBytes]
    cases absolute : (e.entry (m (e.tail regs.ip))).has Op.memAbs with
    | true =>
      have bytes := same.bytes
      rw [Encoding.operandLength, if_neg (by rw [modRM]; exact Bool.false_ne_true),
        if_pos absolute] at bytes
      rw [bytes.read]
    | false => rfl

/-- Two instructions of one meaning are reported in the same way. -/
theorem yyGetMemoryAccess_eq (held : e.HeldAt m regs.ip) (held' : e'.HeldAt m' regs'.ip)
    (isOpcode : e.IsOpcode) (out : Access) :
    yyGetMemoryAccess m regs out = yyGetMemoryAccess m' regs' out := by
  obtain ⟨segSet, seg, found⟩ := yyGetMemoryAccess_reported held isOpcode
  obtain ⟨segSet', seg', found'⟩ :=
    yyGetMemoryAccess_reported held' (same.prefixes.isOpcode isOpcode)
  rw [found, found', (same.alike segSet segSet' seg seg').reported]

end SameTail

/-! ## The length -/

/-- The reported operand is that of a ModRM byte or of an absolute address, as wide as the
operand size. -/
structure Flags.PlainWidth (d : Flags) : Prop where
  place : d.has Op.modRM = true ∨ d.has Op.memAbs = true
  operand : d &&& Op.srcMask = Op.srcMem ∨ (¬d.SrcModRM ∧ d &&& Op.dstMask = Op.dstMem)
  notByte : d.has Op.byteOp = false
  notStack : d.has Op.stack = false
  explicit : d.Explicit

instance (d : Flags) : Decidable d.PlainWidth :=
  decidable_of_iff ((d.has Op.modRM = true ∨ d.has Op.memAbs = true) ∧
      (d &&& Op.srcMask = Op.srcMem ∨ (¬d.SrcModRM ∧ d &&& Op.dstMask = Op.dstMem)) ∧
      d.has Op.byteOp = false ∧ d.has Op.stack = false ∧ d.Explicit)
    ⟨fun ⟨place, operand, notByte, notStack, explicit⟩ =>
        ⟨place, operand, notByte, notStack, explicit⟩,
      fun d => ⟨d.place, d.operand, d.notByte, d.notStack, d.explicit⟩⟩

/-- An entry of plain width that has no operand at a string register or after another one. -/
def Flags.PlainAlone (d : Flags) : Prop :=
  d.PlainWidth → d &&& Op.srcMask ≠ Op.srcSI ∧ d &&& Op.src2Mask ≠ Op.src2Mem16

instance (d : Flags) : Decidable d.PlainAlone := inferInstanceAs (Decidable (_ → _))

set_option maxRecDepth 2048 in
/-- In the tables, an entry of plain width has no operand at a string register or after another one.
-/
theorem Encoding.plainAlone (e : Encoding) (modrm : Byte) : (e.entry modrm).PlainAlone :=
  of_decide_eq_true <| entry_forall (p := fun d => decide d.PlainAlone) (by decide) (by decide)
    (by decide) (by decide) (by decide) e modrm

/-- An operand of plain width in memory is reported with the operand size. -/
theorem DecodeCache.reported_plain {c : DecodeCache} (plain : c.d.PlainWidth)
    (alone : c.d.PlainAlone) (memory : ¬c.NamesRegister) (accessed : ¬c.IsInvlpg) :
    ∃ r, c.reported = some r ∧ r.bytes = c.opBytes := by
  obtain ⟨notSI, notAfter⟩ := alone plain
  unfold reported
  rw [if_pos plain.explicit, stackAccess_of_not_stack plain.notStack]
  by_cases source : c.d.SrcModRM
  · have kind : c.d &&& Op.srcMask = Op.srcMem :=
      plain.operand.resolve_right fun dest => dest.1 source
    have bytes : c.d.sourceBytes c.opBytes = c.opBytes := by
      simp only [Flags.sourceBytes, kind, plain.notByte, Bool.false_eq_true, if_false]
      rw [if_neg (by decide), if_neg (by decide), if_neg (by decide), if_true]
    rw [sourceAccess_modRM source memory accessed, bytes]
    exact ⟨_, rfl, Flags.examined_bytes _ _⟩
  · have kind : c.d &&& Op.dstMask = Op.dstMem := by
      refine (plain.operand.resolve_left fun kind => source ?_).2
      simp [Flags.SrcModRM, kind]
    have destination : c.d.DstModRM := by simp [Flags.DstModRM, kind]
    have bytes : c.d.destBytes c.opBytes = c.opBytes := by
      rw [Flags.destBytes, kind, if_neg (by decide), plain.notByte]
      rfl
    have first : c.sourceAccess = none := by
      rw [sourceAccess, if_neg source, if_neg notSI]
    have second : c.secondAccess = none := if_neg notAfter
    rw [first, second, destAccess, if_pos destination, if_neg memory, bytes]
    exact ⟨_, rfl, Flags.examined_bytes _ _⟩

/-- invlpg examines a byte. -/
theorem groupEntry_invlpg_byte : ∀ modrm : Byte, regField modrm = 7 →
    ¬(groupEntry (twobyteTable 0x01) modrm).PlainWidth := by decide

/-- An operand of plain width in memory is reported as long as the operand size that the prefixes
select. -/
theorem yyGetMemoryAccess_plain {m : Memory} {regs : PtRegs} {e : Encoding} (out : Access)
    (held : e.HeldAt m regs.ip) (isOpcode : e.IsOpcode)
    (plain : (e.entry (m (e.tail regs.ip))).PlainWidth)
    (form : (e.entry (m (e.tail regs.ip))).has Op.modRM = true →
      IsMemoryForm (m (e.tail regs.ip))) :
    ∃ acc, yyGetMemoryAccess m regs out = some acc ∧
      acc.dataLength 0 = BitVec.ofNat 16 e.opBytes := by
  obtain ⟨segSet, seg, found⟩ := yyGetMemoryAccess_reported held isOpcode
  have opBytes : _ = if (e.entry (m (e.tail regs.ip))).has Op.stack then 8 else e.opBytes :=
    (DecodeCache.carries_address m regs (.afterLookup m regs e segSet seg)).opBytes
  have alone := e.plainAlone (m (e.tail regs.ip))
  have entry : ((DecodeCache.afterLookup m regs e segSet seg).address m regs).d
      = e.entry (m (e.tail regs.ip)) := (DecodeCache.carries_address m regs _).d
  have notReg : ¬((DecodeCache.afterLookup m regs e segSet seg).address m regs).NamesRegister ∧
      ¬((DecodeCache.afterLookup m regs e segSet seg).address m regs).IsInvlpg := by
    cases modRM : (e.entry (m (e.tail regs.ip))).has Op.modRM with
    | true =>
      obtain ⟨-, memory, invlpg, -⟩ := address_memory segSet seg modRM (form modRM)
      refine ⟨fun names => memory names.2, fun is => ?_⟩
      obtain ⟨escape, opcode, seven⟩ := invlpg.mp is
      rw [e.entry_of_escape _ escape, opcode] at plain
      exact groupEntry_invlpg_byte _ (regField_of_extendReg (by decide) seven) plain
    | false =>
      constructor
      · intro names
        rw [DecodeCache.NamesRegister, entry, modRM] at names
        exact Bool.false_ne_true names.1
      · rw [DecodeCache.address_absolute modRM]
        exact fun is => absurd is.2.2 (by decide : ¬(0 : Byte) = 7)
  rw [plain.notStack, if_neg Bool.false_ne_true] at opBytes
  rw [← entry] at plain alone
  obtain ⟨r, reported, bytes⟩ := DecodeCache.reported_plain plain alone notReg.1 notReg.2
  refine ⟨_, found out, ?_⟩
  rw [reported, Access.fill_dataLength, bytes, opBytes]

/-- What is reported depends on a prefix string only by three facts: whether it has the operand-size
prefix, whether it has the address-size prefix, and its last byte if that is a REX prefix. An
operand without a width of its own is eight bytes with REX.W, or else two with the operand-size
prefix, or else four. -/
theorem prefix_string_meaning (m m' : Memory) (regs regs' : PtRegs) (e e' : Encoding)
    (held : e.HeldAt m regs.ip) (held' : e'.HeldAt m' regs'.ip) (isOpcode : e.IsOpcode)
    (same : SameTail m m' regs regs' e e') (out : Access) :
    yyGetMemoryAccess m regs out = yyGetMemoryAccess m' regs' out ∧
      ((e.entry (m (e.tail regs.ip))).PlainWidth →
        ((e.entry (m (e.tail regs.ip))).has Op.modRM = true → modField (m (e.tail regs.ip)) ≠ 3) →
        ∃ acc, yyGetMemoryAccess m regs out = some acc ∧
          acc.dataLength 0 = if e.rex.getLsbD 3 then 8 else if e.opSize then 2 else 4) := by
  refine ⟨same.yyGetMemoryAccess_eq held held' isOpcode out, fun plain memory => ?_⟩
  obtain ⟨acc, decoded, length⟩ := yyGetMemoryAccess_plain out held isOpcode plain
    fun modRM => ⟨memory modRM, same.notRip modRM⟩
  refine ⟨acc, decoded, length.trans ?_⟩
  unfold Encoding.opBytes
  split_ifs <;> rfl

/-- `mov %rax, 0x10(%r13d,%r10d,4)` with its prefixes in another order, repeated, and with a REX
prefix that is void. -/
def scaledStoreAgain : Encoding :=
  { prefixes := [0x48, 0x67, 0x2e, 0x67, 0x4b], twobyte := false, opcode := 0x89 }

/-- The memory with the scaled store behind other prefixes. -/
def scaledStoreAgainAt : Memory :=
  .ofBytes 0x1000 [0x48, 0x67, 0x2e, 0x67, 0x4b, 0x89, 0x44, 0x95, 0x10]

/-- The scaled store with other prefixes of the same meaning is reported as `scaledStore` is. -/
theorem prefix_string_meaning_scaled :
    yyGetMemoryAccess scaledStoreAt scaledStoreRegs ⟨0, 0, fun _ => false⟩ =
        yyGetMemoryAccess scaledStoreAgainAt scaledStoreRegs ⟨0, 0, fun _ => false⟩ ∧
      ((scaledStore.entry (scaledStoreAt (scaledStore.tail 0x1000))).PlainWidth →
        ((scaledStore.entry (scaledStoreAt (scaledStore.tail 0x1000))).has Op.modRM = true →
          modField (scaledStoreAt (scaledStore.tail 0x1000)) ≠ 3) →
        ∃ acc, yyGetMemoryAccess scaledStoreAt scaledStoreRegs ⟨0, 0, fun _ => false⟩ = some acc ∧
          acc.dataLength 0 = if scaledStore.rex.getLsbD 3 then 8
            else if scaledStore.opSize then 2 else 4) :=
  prefix_string_meaning scaledStoreAt scaledStoreAgainAt scaledStoreRegs scaledStoreRegs scaledStore
    scaledStoreAgain (by decide) (by decide) (fun _ => by decide)
    ⟨⟨by decide, by decide, by decide, by decide, by decide⟩, by decide, rfl, by decide⟩ _

end Drddr
