import Drddr.Disasm.Report

/-!
# Stack accesses

What the address stage of the decoder leaves alone, the width of the source operand, and the
access that is reported for a push.
-/

namespace Drddr

open Machine

namespace DecodeCache

/-! ## What the address stage carries -/

/-- The second cache has the entry, the sizes, the registers and the operands of the first. -/
structure Carries (c c' : DecodeCache) : Prop where
  d : c'.d = c.d
  opBytes : c'.opBytes = c.opBytes
  regs : c'.regs = c.regs
  src : c'.src = c.src
  src2 : c'.src2 = c.src2
  dst : c'.dst = c.dst

variable {m : Memory} {c c' c'' : DecodeCache}

/-- A cache carries itself. -/
theorem Carries.refl (c : DecodeCache) : Carries c c := ⟨rfl, rfl, rfl, rfl, rfl, rfl⟩

/-- Two stages together carry what each of them carries. -/
theorem Carries.trans (first : Carries c c') (second : Carries c' c'') : Carries c c'' :=
  ⟨second.d.trans first.d, second.opBytes.trans first.opBytes, second.regs.trans first.regs,
    second.src.trans first.src, second.src2.trans first.src2, second.dst.trans first.dst⟩

/-- A stage with two branches carries what both of them carry. -/
theorem Carries.ite {p : Prop} [Decidable p] (yes : Carries c c') (no : Carries c c'') :
    Carries c (if p then c' else c'') := by
  split
  · exact yes
  · exact no

/-- A stage that goes on to change the address. -/
theorem Carries.ea (carried : Carries c c') (ea : Word) : Carries c { c' with modrmEa := ea } :=
  ⟨carried.d, carried.opBytes, carried.regs, carried.src, carried.src2, carried.dst⟩

/-- A stage that goes on to set the segment. -/
theorem Carries.setSegOverride (carried : Carries c c') (seg : Byte) :
    Carries c (c'.setSegOverride seg) :=
  ⟨carried.d, carried.opBytes, carried.regs, carried.src, carried.src2, carried.dst⟩

/-- A fetch into the address carries the cache on. -/
theorem carries_addFetch (m : Memory) (c : DecodeCache) (size : Nat) :
    Carries c (c.addFetch m size) := ⟨rfl, rfl, rfl, rfl, rfl, rfl⟩

/-- The stage of the displacement carries the cache on. -/
theorem carries_decodeDisp (m : Memory) (c : DecodeCache) : Carries c (c.decodeDisp m) := by
  unfold decodeDisp
  apply Carries.ite
  · apply Carries.ite
    · exact carries_addFetch m c 4
    · exact .refl c
  · apply Carries.ite
    · exact carries_addFetch m c 1
    · apply Carries.ite
      · exact carries_addFetch m c 4
      · exact .refl c

/-- The stage of the SIB byte carries the cache on. -/
theorem carries_decodeSib (m : Memory) (c : DecodeCache) (indexReg baseReg : Byte) :
    Carries c (c.decodeSib m indexReg baseReg) := by
  unfold decodeSib
  have passed : Carries c (c.fetchByte m).2 := ⟨rfl, rfl, rfl, rfl, rfl, rfl⟩
  have based (ea : Word) (p : Prop) [Decidable p] : Carries c
      (if p then (c.fetchByte m).2.addFetch m 4 else { (c.fetchByte m).2 with modrmEa := ea }) :=
    .ite (passed.trans (carries_addFetch m _ 4)) (passed.ea ea)
  exact .ite ((based _ _).ea _) (based _ _)

/-- The stage of a 32-bit or 64-bit address carries the cache on. -/
theorem carries_modrm64 (m : Memory) (c : DecodeCache) (indexReg baseReg : Byte) :
    Carries c (c.modrm64 m indexReg baseReg) := by
  unfold modrm64
  have based : Carries c
      (if c.modrmRm &&& 7 = 4 then c.decodeSib m indexReg baseReg
        else if c.modrmRm &&& 7 = 5 ∧ c.modrmMod = 0 then { c with ripRelative := true }
        else { c with modrmEa := c.modrmEa + c.regs c.modrmRm.toNat }) := by
    apply Carries.ite
    · exact carries_decodeSib m c indexReg baseReg
    · apply Carries.ite
      · exact ⟨rfl, rfl, rfl, rfl, rfl, rfl⟩
      · exact (Carries.refl c).ea _
  exact based.trans (carries_decodeDisp m _)

/-- The stage of a 16-bit address carries the cache on. -/
theorem carries_modrm16 (m : Memory) (c : DecodeCache) (regs : PtRegs) :
    Carries c (c.modrm16 m regs) := by
  unfold modrm16
  have fetched : Carries c
      (if c.modrmMod = 0 then if c.modrmRm = 6 then c.addFetch m 2 else c
        else if c.modrmMod = 1 then c.addFetch m 1
        else if c.modrmMod = 2 then c.addFetch m 2
        else c) := by
    apply Carries.ite
    · exact .ite (carries_addFetch m c 2) (.refl c)
    · exact .ite (carries_addFetch m c 1) (.ite (carries_addFetch m c 2) (.refl c))
  exact (Carries.ite (.ite (fetched.ea _) ((fetched.ea _).setSegOverride 2)) (fetched.ea _)).ea _

/-- The stage of the ModRM byte and what follows it carries the cache on. -/
theorem carries_decodeModRM (m : Memory) (c : DecodeCache) (regs : PtRegs) :
    Carries c (c.decodeModRM m regs) := by
  unfold decodeModRM
  have bits : Carries c (if c.rexPrefix ≠ 0 then { c with
      modrmReg := (c.rexPrefix &&& 4) <<< 1
      modrmRm := if c.rexPrefix ≠ 0 then (c.rexPrefix &&& 1) <<< 3 else 0 } else c) := by
    apply Carries.ite
    · exact ⟨rfl, rfl, rfl, rfl, rfl, rfl⟩
    · exact .refl c
  have passed (c' : DecodeCache) (modrm mod reg rm : Byte) (carried : Carries c c') :
      Carries c { (c'.fetchByte m).2 with
        modrm, modrmMod := mod, modrmReg := reg, modrmRm := rm, modrmEa := 0 } :=
    ⟨carried.d, carried.opBytes, carried.regs, carried.src, carried.src2, carried.dst⟩
  apply Carries.ite
  · exact passed _ _ _ _ _ bits
  · apply Carries.ite
    · exact (passed _ _ _ _ _ bits).trans (carries_modrm16 m _ regs)
    · exact (passed _ _ _ _ _ bits).trans (carries_modrm64 m _ _ _)

/-- The stage of an absolute address carries the cache on. -/
theorem carries_decodeMemAbs (m : Memory) (c : DecodeCache) : Carries c (c.decodeMemAbs m) := by
  unfold decodeMemAbs
  apply Carries.ite
  · exact ⟨rfl, rfl, rfl, rfl, rfl, rfl⟩
  · exact .refl c

/-- Finishing the address carries the cache on. -/
theorem carries_finishEa (c : DecodeCache) : Carries c c.finishEa := by
  rw [finishEa_eq]
  exact ⟨rfl, rfl, rfl, rfl, rfl, rfl⟩

/-- The whole address stage, which replaces the operand size of a stack instruction. -/
theorem carries_address (m : Memory) (regs : PtRegs) (c : DecodeCache) :
    Carries { c with opBytes := c.stackBytes } (c.address m regs) := by
  unfold address
  rw [stackSize_eq]
  refine Carries.trans ?_ (carries_finishEa _)
  apply Carries.ite
  · exact carries_decodeModRM m _ regs
  · exact .ite (carries_decodeMemAbs m _) (.refl _)

/-! ## The width of the source operand -/

end DecodeCache

/-- The bytes of the source operand of an entry, by the operand size. -/
def Flags.sourceBytes (d : Flags) (opBytes : Nat) : Nat :=
  let kind := d &&& Op.srcMask
  let operand := if d.has Op.byteOp then 1 else opBytes
  if kind = Op.srcReg then operand
  else if kind = Op.srcMem16 then 2
  else if kind = Op.srcMem32 then 4
  else if kind = Op.srcMem then operand
  -- An immediate has at most four bytes.
  else if kind = Op.srcImm ∨ kind = Op.srcImmU then if operand = 8 then 4 else operand
  else if kind = Op.srcImmByte ∨ kind = Op.srcImmUByte then 1
  else if kind = Op.srcOne then 1
  else if kind = Op.srcSI then operand
  else 0

namespace DecodeCache

/-- The source operand keeps the width it is given. -/
@[simp] theorem srcMemCommon_bytes (c : DecodeCache) (src : Operand) :
    (c.srcMemCommon src).bytes = src.bytes := by
  unfold srcMemCommon
  split <;> rfl

/-- A register operand has the width of the instruction. -/
@[simp] theorem decodeRegisterOperand_bytes (c : DecodeCache) (op : Operand) :
    (c.decodeRegisterOperand op false).bytes = c.operandBytes := by
  unfold decodeRegisterOperand operandBytes
  cases c.d.has Op.byteOp <;> rfl

/-- The width of the source operand depends on the entry and the operand size alone. -/
theorem srcOperand_bytes (m : Memory) {c : DecodeCache} (blank : c.src.bytes = 0) :
    (c.srcOperand m).1.bytes = c.d.sourceBytes c.opBytes := by
  have width : (if c.d.has Op.byteOp = true then 1 else c.opBytes) = c.operandBytes := rfl
  unfold srcOperand Flags.sourceBytes
  simp only [width]
  split_ifs <;> simp [blank]

end DecodeCache

/-! ## Pushes and pops -/

/-- The entry makes the access to the stack the reported one: a write by a push, a read by a
pop. -/
structure Flags.ReportsStack (d : Flags) (write : Bool) : Prop where
  stack : d.has Op.stack = true
  push : d.has Op.push = write
  pop : write = false → d.has Op.pop = true
  explicit : d.Explicit

/-- A push is not only an examination. Entries with `Src2Mem16` or `Src2Imm16` have every flag of
the upper half set, and are no stack instructions with decoded operands. -/
def Flags.PushWrites (d : Flags) : Prop :=
  d.has Op.stack = true → d.Explicit → d.has Op.push = true → d.has Op.readOnly = false

instance (d : Flags) : Decidable d.PushWrites := inferInstanceAs (Decidable (_ → _ → _))

set_option maxRecDepth 2048 in
/-- In the tables, every push writes. -/
theorem Encoding.pushWrites (e : Encoding) (modrm : Byte) : (e.entry modrm).PushWrites :=
  of_decide_eq_true <| entry_forall (p := fun d => decide d.PushWrites) (by decide) (by decide)
    (by decide) (by decide) (by decide) e modrm

/-- An entry of a stack instruction describes its instruction. -/
theorem described_of_stack {d : Flags} (stack : d.has Op.stack = true) :
    ¬(d = Op.known ∨ d = 0) := by
  rintro (known | unknown)
  · rw [known] at stack
    exact absurd stack (by decide)
  · rw [unknown] at stack
    exact absurd stack (by decide)

/-- A stack instruction reports the slot at the stack pointer, as wide as its source. -/
theorem DecodeCache.result_stack {m : Memory} {c : DecodeCache} {write : Bool} (out : Access)
    (blank : c.src.bytes = 0) (reports : c.d.ReportsStack write) (writes : c.d.PushWrites) :
    let length := BitVec.ofNat 16 (c.d.sourceBytes c.opBytes)
    let acc := c.result m out
    acc.dataAddr 0 = c.regs 4 - (if write then length.signExtend 64 else 0) ∧
      acc.dataLength 0 = length ∧ acc.isWrite 0 = write := by
  have explicit : ¬c.d &&& Op.dstMask = Op.implicitOps := reports.explicit
  have width : (c.operands m).src.bytes = c.d.sourceBytes c.opBytes := c.srcOperand_bytes m blank
  have entry : (c.operands m).d = c.d := rfl
  have file : (c.operands m).regs = c.regs := rfl
  cases write with
  | true =>
    simp only [result, if_neg explicit, Access.reportStack, Access.reportReadOnly, entry, file,
      width, reports.stack, reports.push, writes reports.stack reports.explicit reports.push,
      if_true]
    simp [Access.report]
  | false =>
    simp only [result, if_neg explicit, Access.reportStack, Access.reportReadOnly, entry, file,
      width, reports.stack, reports.push, reports.pop rfl, if_true, Bool.false_eq_true, if_false]
    split <;> simp [Access.report]

/-- `yy_get_memory_access` reports a stack instruction with a decoded operand at the stack pointer,
as wide as the source operand and not as the slot. -/
theorem yyGetMemoryAccess_stack {m : Memory} {regs : PtRegs} {e : Encoding} {write : Bool}
    (out : Access) (held : e.HeldAt m regs.ip) (isOpcode : e.IsOpcode)
    (reports : (e.entry (m (e.tail regs.ip))).ReportsStack write) :
    let length := BitVec.ofNat 16 ((e.entry (m (e.tail regs.ip))).sourceBytes 8)
    ∃ acc, yyGetMemoryAccess m regs out = some acc ∧
      acc.dataAddr 0 = regs.sp - (if write then length.signExtend 64 else 0) ∧
      acc.dataLength 0 = length ∧ acc.isWrite 0 = write := by
  obtain ⟨segSet, seg, decoded⟩ := yyGetMemoryAccess_decoded out held isOpcode
    (described_of_stack reports.stack)
  have carried :=
    DecodeCache.carries_address m regs (.afterLookup m regs e segSet seg)
  generalize ((DecodeCache.afterLookup m regs e segSet seg).address m regs) = c at carried decoded
  have entry : c.d = e.entry (m (e.tail regs.ip)) := carried.d
  have size : c.opBytes = 8 := by
    have replaced : c.opBytes = _ := carried.opBytes
    rw [replaced]
    exact if_pos reports.stack
  have blank : c.src.bytes = 0 := congrArg Operand.bytes carried.src
  have file : c.regs 4 = regs.sp := congrFun carried.regs 4
  rw [← entry] at reports
  have writes : c.d.PushWrites := by
    rw [entry]
    exact e.pushWrites _
  have slot := DecodeCache.result_stack (m := m) { out with dataLength := fun _ => 0 } blank
    reports writes
  rw [file, size, entry] at slot
  exact ⟨_, decoded, slot⟩

/-! ## The slot of a push or pop -/

namespace Encoding

variable (e : Encoding)

/-- A push of a register, an immediate or a ModRM operand. -/
def IsPush (modrm : Byte) : Prop :=
  e.twobyte = false ∧ ((0x50 ≤ e.opcode ∧ e.opcode ≤ 0x57) ∨ e.opcode = 0x68 ∨ e.opcode = 0x6a ∨
    (e.opcode = 0xff ∧ regField modrm = 6))

/-- A pop of a register. -/
def IsPop : Prop := e.twobyte = false ∧ 0x58 ≤ e.opcode ∧ e.opcode ≤ 0x5f

/-- A push, for a write, or a pop, for a read. -/
def AccessesSlot (modrm : Byte) (write : Bool) : Prop := if write then e.IsPush modrm else e.IsPop

/-- The operand that is pushed is a register or a ModRM operand. -/
def PushesOperand : Prop := (0x50 ≤ e.opcode ∧ e.opcode ≤ 0x57) ∨ e.opcode = 0xff

instance (modrm : Byte) : Decidable (e.IsPush modrm) := inferInstanceAs (Decidable (_ ∧ _))

instance : Decidable e.IsPop := inferInstanceAs (Decidable (_ ∧ _))

instance : Decidable e.PushesOperand := inferInstanceAs (Decidable (_ ∨ _))

end Encoding

/-- What the tables say of a push or a pop, and whether its source is as wide as the slot. -/
def Flags.SlotEntry (d : Flags) (write wide : Bool) : Prop :=
  d.has Op.stack = true ∧ d.has Op.push = write ∧ (write = false → d.has Op.pop = true) ∧
    d.Explicit ∧ d.sourceBytes 8 < 2 ^ 16 ∧ (d.sourceBytes 8 = 8 ↔ wide = true)

instance (d : Flags) (write wide : Bool) : Decidable (d.SlotEntry write wide) :=
  inferInstanceAs (Decidable (_ ∧ _))

set_option maxRecDepth 2048 in
/-- In the tables, pushes of registers and immediates and pops have entries for their slot. -/
theorem opcodeTable_slot : ∀ b : Byte,
    (((0x50 ≤ b ∧ b ≤ 0x57) ∨ b = 0x68 ∨ b = 0x6a → (opcodeTable b).has Op.group = false ∧
        isPrefix b = false ∧ b ≠ 0x0f ∧
        (opcodeTable b).SlotEntry true (decide ((0x50 ≤ b ∧ b ≤ 0x57) ∨ b = 0xff))) ∧
      (0x58 ≤ b ∧ b ≤ 0x5f → (opcodeTable b).has Op.group = false ∧
        isPrefix b = false ∧ b ≠ 0x0f ∧
        (opcodeTable b).SlotEntry false (decide ((0x50 ≤ b ∧ b ≤ 0x57) ∨ b = 0xff)))) := by
  decide

/-- In the tables, pushes of ModRM operands have entries for their slot. -/
theorem groupEntry_slot : ∀ modrm : Byte, regField modrm = 6 →
    (groupEntry (opcodeTable 0xff) modrm).SlotEntry true true := by
  decide

/-- An instruction that accesses a slot has an entry for it. -/
theorem Encoding.AccessesSlot.slotEntry {e : Encoding} {modrm : Byte} {write : Bool}
    (accesses : e.AccessesSlot modrm write) :
    e.IsOpcode ∧ (e.entry modrm).SlotEntry write (decide e.PushesOperand) := by
  have alone (single : e.twobyte = false) (noGroup : (opcodeTable e.opcode).has Op.group = false) :
      e.entry modrm = opcodeTable e.opcode := by
    rw [e.entry_of_single modrm single, groupEntry_of_not_group modrm noGroup]
  cases write with
  | true =>
    obtain ⟨single, register | immediate | byte | ⟨group, six⟩⟩ := accesses
    · have found := (opcodeTable_slot e.opcode).1 (.inl register)
      exact ⟨fun _ => ⟨found.2.1, found.2.2.1⟩, alone single found.1 ▸ found.2.2.2⟩
    · have found := (opcodeTable_slot e.opcode).1 (.inr (.inl immediate))
      exact ⟨fun _ => ⟨found.2.1, found.2.2.1⟩, alone single found.1 ▸ found.2.2.2⟩
    · have found := (opcodeTable_slot e.opcode).1 (.inr (.inr byte))
      exact ⟨fun _ => ⟨found.2.1, found.2.2.1⟩, alone single found.1 ▸ found.2.2.2⟩
    · have wide : decide e.PushesOperand = true := decide_eq_true (.inr group)
      refine ⟨fun _ => ?_, ?_⟩
      · rw [group]
        decide
      · rw [e.entry_of_single modrm single, group, wide]
        exact groupEntry_slot modrm six
  | false =>
    obtain ⟨single, range⟩ := accesses
    have found := (opcodeTable_slot e.opcode).2 range
    exact ⟨fun _ => ⟨found.2.1, found.2.2.1⟩, alone single found.1 ▸ found.2.2.2⟩

/-- A push or a pop reports the eight bytes of its slot exactly when it pushes a register or a
ModRM operand. -/
theorem stack_slot_iff (m : Memory) (regs : PtRegs) (out : Access) (e : Encoding) (write : Bool)
    (held : e.HeldAt m regs.ip) (accesses : e.AccessesSlot (m (e.tail regs.ip)) write) :
    ∃ acc, yyGetMemoryAccess m regs out = some acc ∧
      (acc.dataLength 0 = 8 ∧ acc.dataAddr 0 = (if write then regs.sp - 8 else regs.sp) ∧
          acc.isWrite 0 = write ↔ e.PushesOperand) := by
  obtain ⟨isOpcode, stack, push, pop, explicit, small, eight⟩ := accesses.slotEntry
  obtain ⟨acc, decoded, addr, length, direction⟩ :=
    yyGetMemoryAccess_stack out held isOpcode ⟨stack, push, pop, explicit⟩
  refine ⟨acc, decoded, ?_⟩
  rw [addr, length, direction]
  have bytes : BitVec.ofNat 16 ((e.entry (m (e.tail regs.ip))).sourceBytes 8) = 8 ↔
      (e.entry (m (e.tail regs.ip))).sourceBytes 8 = 8 := by
    rw [← BitVec.toNat_inj, BitVec.toNat_ofNat, Nat.mod_eq_of_lt small]
    rfl
  rw [bytes, eight, decide_eq_true_iff]
  constructor
  · exact fun slot => slot.1
  · intro operand
    have full : (e.entry (m (e.tail regs.ip))).sourceBytes 8 = 8 :=
      eight.mpr (decide_eq_true operand)
    refine ⟨operand, ?_, rfl⟩
    rw [full]
    cases write with
    | true => rfl
    | false => exact BitVec.sub_zero regs.sp

/-- `push %rbp`, from `disassem-test.c`. -/
def pushBp : Encoding := { prefixes := [], twobyte := false, opcode := 0x55 }

/-- A push of a register reports its slot. -/
theorem stack_slot_iff_push :
    ∃ acc, yyGetMemoryAccess (.ofBytes 0x1000 [0x55])
      { (default : PtRegs) with ip := 0x1000, sp := 0xdeadbeef } ⟨0, 0, fun _ => false⟩ = some acc ∧
      (acc.dataLength 0 = 8 ∧ acc.dataAddr 0 = (0xdeadbeef - 8 : Word) ∧ acc.isWrite 0 = true ↔
        pushBp.PushesOperand) :=
  stack_slot_iff _ { (default : PtRegs) with ip := 0x1000, sp := 0xdeadbeef } _ pushBp true
    (by decide) (by decide : pushBp.IsPush _)

/-- `pop %rbx`. -/
def popBx : Encoding := { prefixes := [], twobyte := false, opcode := 0x5b }

/-- The memory with `pop %rbx`. -/
def popBxAt : Memory := .ofBytes 0x1000 [0x5b]

/-- Registers before `pop %rbx`. -/
def popBxRegs : PtRegs := { (default : PtRegs) with ip := 0x1000, sp := 0x2000 }

/-- A pop of a register reports no access at all. -/
theorem stack_slot_pop : popBx.HeldAt popBxAt popBxRegs.ip ∧ popBx.IsPop ∧
    (yyGetMemoryAccess popBxAt popBxRegs ⟨0, 0, fun _ => false⟩).map (·.dataLength 0) = some 0 ∧
      (0 : BitVec 16) ≠ 8 :=
  ⟨by decide, by decide, by decide, by decide⟩

end Drddr
