import Drddr.Disasm.Direction

/-!
# What an instruction does to its operand

The general-purpose instructions whose ModRM operand is their only one in memory, and what the
processor does to that operand: how many bytes it accesses, and whether it writes them. Which of
them the decoder reports so, which it reports otherwise, and which it does not know.
-/

namespace Drddr

open Machine

/-! ## Instructions -/

/-- The instructions, those of one effect together. -/
inductive Operation where
  /-- ADD, OR, ADC, SBB, AND, SUB and XOR. -/
  | arithmetic
  | CMP
  | TEST
  | XCHG
  | MOV
  /-- MOV from or to a segment register. -/
  | movSegment
  | MOVSXD
  /-- The rotates and shifts by an immediate, by one or by CL. -/
  | shift
  | INC
  | DEC
  | NOT
  | NEG
  | MUL
  | IMUL
  | DIV
  | IDIV
  | JMP
  | CMOV
  | SET
  | BT
  /-- BTS, BTR and BTC. -/
  | bitChange
  /-- SHLD and SHRD. -/
  | doubleShift
  | CMPXCHG
  /-- MOVZX and MOVSX. -/
  | movExtend
  /-- BSF and BSR. -/
  | bitScan
  | XADD
  | MOVNTI
  | CMPXCHG8B
  deriving DecidableEq

/-- A form of an instruction, and what it does to an operand in memory. -/
structure Form where
  operation : Operation
  twobyte : Bool
  opcodes : List Byte
  /-- The `reg` fields of the ModRM byte that go with it, if not all do. -/
  regs : Option (List Nat)
  /-- The accessed bytes, by the opcode and the operand size. -/
  bytes : Byte → Nat → Nat
  writes : Bool

namespace Form

/-- A byte by an even opcode and the operand size by an odd one. -/
def byOpcode (b : Byte) (n : Nat) : Nat := if b.getLsbD 0 then n else 1

/-- The operand size by every opcode. -/
def operandSize (_ : Byte) (n : Nat) : Nat := n

/-- A form may access the same bytes at every operand size. -/
def always (bytes : Nat) (_ : Byte) (_ : Nat) : Nat := bytes

/-- The instruction with a ModRM byte is of the form. -/
def Is (f : Form) (e : Encoding) (modrm : Byte) : Prop :=
  e.twobyte = f.twobyte ∧ f.opcodes.contains e.opcode = true ∧
    (f.regs.all fun regs => regs.contains (regField modrm)) = true

instance (f : Form) (e : Encoding) (modrm : Byte) : Decidable (f.Is e modrm) :=
  inferInstanceAs (Decidable (_ ∧ _))

end Form

/-- The forms. -/
def forms : List Form :=
  [
    ⟨.arithmetic, false, [0x00, 0x01, 0x08, 0x09, 0x10, 0x11, 0x18, 0x19, 0x20, 0x21, 0x28, 0x29,
      0x30, 0x31], none, Form.byOpcode, true⟩,
    ⟨.arithmetic, false, [0x02, 0x03, 0x0a, 0x0b, 0x12, 0x13, 0x1a, 0x1b, 0x22, 0x23, 0x2a, 0x2b,
      0x32, 0x33], none, Form.byOpcode, false⟩,
    ⟨.arithmetic, false, [0x80, 0x81, 0x83], some [0, 1, 2, 3, 4, 5, 6], Form.byOpcode, true⟩,
    ⟨.CMP, false, [0x38, 0x39, 0x3a, 0x3b], none, Form.byOpcode, false⟩,
    ⟨.CMP, false, [0x80, 0x81, 0x83], some [7], Form.byOpcode, false⟩,
    ⟨.TEST, false, [0x84, 0x85], none, Form.byOpcode, false⟩,
    ⟨.TEST, false, [0xf6, 0xf7], some [0], Form.byOpcode, false⟩,
    ⟨.XCHG, false, [0x86, 0x87], none, Form.byOpcode, true⟩,
    ⟨.MOV, false, [0x88, 0x89], none, Form.byOpcode, true⟩,
    ⟨.MOV, false, [0x8a, 0x8b], none, Form.byOpcode, false⟩,
    ⟨.MOV, false, [0xc6, 0xc7], some [0], Form.byOpcode, true⟩,
    ⟨.movSegment, false, [0x8c], none, Form.always 2, true⟩,
    ⟨.movSegment, false, [0x8e], none, Form.always 2, false⟩,
    ⟨.MOVSXD, false, [0x63], none, fun _ n => min n 4, false⟩,
    ⟨.shift, false, [0xc0, 0xc1, 0xd0, 0xd1, 0xd2, 0xd3], none, Form.byOpcode, true⟩,
    ⟨.INC, false, [0xfe, 0xff], some [0], Form.byOpcode, true⟩,
    ⟨.DEC, false, [0xfe, 0xff], some [1], Form.byOpcode, true⟩,
    ⟨.NOT, false, [0xf6, 0xf7], some [2], Form.byOpcode, true⟩,
    ⟨.NEG, false, [0xf6, 0xf7], some [3], Form.byOpcode, true⟩,
    ⟨.MUL, false, [0xf6, 0xf7], some [4], Form.byOpcode, false⟩,
    ⟨.IMUL, false, [0xf6, 0xf7], some [5], Form.byOpcode, false⟩,
    ⟨.IMUL, false, [0x69, 0x6b], none, Form.operandSize, false⟩,
    ⟨.IMUL, true, [0xaf], none, Form.operandSize, false⟩,
    ⟨.DIV, false, [0xf6, 0xf7], some [6], Form.byOpcode, false⟩,
    ⟨.IDIV, false, [0xf6, 0xf7], some [7], Form.byOpcode, false⟩,
    ⟨.JMP, false, [0xff], some [4], Form.always 8, false⟩,
    ⟨.CMOV, true, [0x40, 0x41, 0x42, 0x43, 0x44, 0x45, 0x46, 0x47, 0x48, 0x49, 0x4a, 0x4b, 0x4c,
      0x4d, 0x4e, 0x4f], none, Form.operandSize, false⟩,
    ⟨.SET, true, [0x90, 0x91, 0x92, 0x93, 0x94, 0x95, 0x96, 0x97, 0x98, 0x99, 0x9a, 0x9b, 0x9c,
      0x9d, 0x9e, 0x9f], none, Form.always 1, true⟩,
    ⟨.BT, true, [0xa3], none, Form.operandSize, false⟩,
    ⟨.BT, true, [0xba], some [4], Form.operandSize, false⟩,
    ⟨.bitChange, true, [0xab, 0xb3, 0xbb], none, Form.operandSize, true⟩,
    ⟨.bitChange, true, [0xba], some [5, 6, 7], Form.operandSize, true⟩,
    ⟨.doubleShift, true, [0xa4, 0xa5, 0xac, 0xad], none, Form.operandSize, true⟩,
    ⟨.CMPXCHG, true, [0xb0, 0xb1], none, Form.byOpcode, true⟩,
    ⟨.movExtend, true, [0xb6, 0xbe], none, Form.always 1, false⟩,
    ⟨.movExtend, true, [0xb7, 0xbf], none, Form.always 2, false⟩,
    ⟨.bitScan, true, [0xbc, 0xbd], none, Form.operandSize, false⟩,
    ⟨.XADD, true, [0xc0, 0xc1], none, Form.byOpcode, true⟩,
    ⟨.MOVNTI, true, [0xc3], none, Form.operandSize, true⟩,
    ⟨.CMPXCHG8B, true, [0xc7], some [1], fun _ n => if n = 8 then 16 else 8, true⟩]

namespace Operation

/-- The tables have no entry for an operation. -/
def Missing (o : Operation) : Prop :=
  o ∈ [.MUL, .IMUL, .DIV, .IDIV, .SET, .bitScan, .XADD]

instance (o : Operation) : Decidable o.Missing := inferInstanceAs (Decidable (_ ∈ _))

/-- The entry of an operation says what it does, at an operand size. BT is taken for a write, a
segment register for one of the operand size, the source of MOVSXD for four bytes and CMPXCHG16B for
CMPXCHG8B. -/
structure Described (o : Operation) (n : Nat) : Prop where
  found : ¬o.Missing
  notBT : o ≠ .BT
  segment : o = .movSegment → n = 2
  extended : o = .MOVSXD → n ≠ 2
  exchanged : o = .CMPXCHG8B → n ≠ 8

instance (o : Operation) (n : Nat) : Decidable (o.Described n) :=
  decidable_of_iff (¬o.Missing ∧ o ≠ .BT ∧ (o = .movSegment → n = 2) ∧ (o = .MOVSXD → n ≠ 2) ∧
      (o = .CMPXCHG8B → n ≠ 8))
    ⟨fun ⟨found, notBT, segment, extended, exchanged⟩ =>
        ⟨found, notBT, segment, extended, exchanged⟩,
      fun d => ⟨d.found, d.notBT, d.segment, d.extended, d.exchanged⟩⟩

end Operation

/-! ## Entries -/

namespace Flags

variable (d : Flags)

/-- The entry of an operand in memory, by the `reg` field. -/
def memoryEntry (reg : Nat) : Flags :=
  if d.has Op.group then groupTable (((d &&& Op.groupMask) <<< 3).toNat + reg) else d

/-- An entry that names its ModRM operand. -/
structure NamesOperand : Prop where
  modRM : d.has Op.modRM = true
  operand : d.SrcModRM ∨ d.DstModRM
  notPush : d.has Op.push = false
  explicit : d.Explicit

instance : Decidable d.NamesOperand :=
  decidable_of_iff (d.has Op.modRM = true ∧ (d.SrcModRM ∨ d.DstModRM) ∧ d.has Op.push = false ∧
      d.Explicit)
    ⟨fun ⟨modRM, operand, notPush, explicit⟩ => ⟨modRM, operand, notPush, explicit⟩,
      fun d => ⟨d.modRM, d.operand, d.notPush, d.explicit⟩⟩

/-- The bytes that an entry gives its operand, at an operand size. -/
def effectBytes (n : Nat) : Nat := d.modrmBytes (if d.has Op.stack then 8 else n)

/-- The direction that is reported for an operand of the ModRM byte. -/
def effectWrites : Bool := !decide d.SrcModRM && !d.has Op.readOnly

end Flags

/-- The fields of a ModRM byte as the lookup takes them. -/
theorem modrm_fields : ∀ modrm : Byte, ((modrm >>> 3) &&& 7).toNat = regField modrm ∧
    (modrm >>> 6 = 3 ↔ modField modrm = 3) := by decide

/-- The entry does not depend on the rest of the byte. -/
theorem groupEntry_memory (d : Flags) {modrm : Byte} (memory : modField modrm ≠ 3) :
    groupEntry d modrm = d.memoryEntry (regField modrm) := by
  obtain ⟨reg, three⟩ := modrm_fields modrm
  unfold groupEntry Flags.memoryEntry
  have notDual : ¬(d.has Op.groupDual ∧ modrm >>> 6 = 3) := fun both => memory (three.mp both.2)
  simp only [reg, if_neg notDual]

/-- An entry says what a form with an opcode does exactly when its operation is described. -/
structure Form.Entered (f : Form) (b : Byte) (d : Flags) : Prop where
  isOpcode : f.twobyte = false → isPrefix b = false ∧ b ≠ 0x0f
  notInvlpg : ¬(f.twobyte = true ∧ b = 0x01)
  accessed : ∀ n ∈ [2, 4, 8], 0 < f.bytes b n ∧ f.bytes b n ≤ 16
  missing : f.operation.Missing → d = 0
  names : ¬f.operation.Missing → d.NamesOperand
  effect : ∀ n ∈ [2, 4, 8], ¬f.operation.Missing →
    ((d.effectBytes n = f.bytes b n ∧ d.effectWrites = f.writes) ↔ f.operation.Described n)

instance (f : Form) (b : Byte) (d : Flags) : Decidable (f.Entered b d) :=
  decidable_of_iff ((f.twobyte = false → isPrefix b = false ∧ b ≠ 0x0f) ∧
      ¬(f.twobyte = true ∧ b = 0x01) ∧ (∀ n ∈ [2, 4, 8], 0 < f.bytes b n ∧ f.bytes b n ≤ 16) ∧
      (f.operation.Missing → d = 0) ∧ (¬f.operation.Missing → d.NamesOperand) ∧
      ∀ n ∈ [2, 4, 8], ¬f.operation.Missing →
        ((d.effectBytes n = f.bytes b n ∧ d.effectWrites = f.writes) ↔ f.operation.Described n))
    ⟨fun ⟨isOpcode, notInvlpg, accessed, missing, names, effect⟩ =>
        ⟨isOpcode, notInvlpg, accessed, missing, names, effect⟩,
      fun d => ⟨d.isOpcode, d.notInvlpg, d.accessed, d.missing, d.names, d.effect⟩⟩

/-- The entry of an opcode of a form. -/
def Form.opcodeEntry (f : Form) (b : Byte) : Flags :=
  if f.twobyte then twobyteTable b else opcodeTable b

/-- The forms, each with its opcodes one by one. -/
def formOpcodes : List (Form × Byte) := forms.flatMap fun f => f.opcodes.map fun b => (f, b)

/-- In the tables, the opcodes that name one operation are in no group, and have the entry of the
operation. -/
theorem forms_single : ∀ p ∈ formOpcodes, p.1.regs = none →
    (p.1.opcodeEntry p.2).has Op.group = false ∧ p.1.Entered p.2 (p.1.opcodeEntry p.2) := by
  decide +kernel

/-- In the tables, the opcodes of a group lead to the entry of the operation. -/
theorem forms_group : ∀ p ∈ formOpcodes, ∀ regs ∈ p.1.regs.toList, ∀ reg ∈ regs,
    p.1.Entered p.2 ((p.1.opcodeEntry p.2).memoryEntry reg) := by decide +kernel

/-- An instruction of a form has an entry that is described as the form is. -/
theorem Form.Is.entered {f : Form} {e : Encoding} {modrm : Byte} (known : f ∈ forms)
    (is : f.Is e modrm) (memory : modField modrm ≠ 3) : f.Entered e.opcode (e.entry modrm) := by
  obtain ⟨escape, opcode, reg⟩ := is
  have inside : (f, e.opcode) ∈ formOpcodes := List.mem_flatMap.mpr
    ⟨f, known, List.mem_map.mpr ⟨e.opcode, List.contains_iff_mem.mp opcode, rfl⟩⟩
  have table : e.opcodeEntry = f.opcodeEntry e.opcode := by
    unfold Encoding.opcodeEntry Form.opcodeEntry
    rw [escape]
  have entry : e.entry modrm = (f.opcodeEntry e.opcode).memoryEntry (regField modrm) := by
    rw [← table]
    exact groupEntry_memory e.opcodeEntry memory
  rw [entry]
  cases selected : f.regs with
  | none =>
    obtain ⟨single, entered⟩ := forms_single _ inside selected
    rw [Flags.memoryEntry, if_neg (Bool.eq_false_iff.mp single)]
    exact entered
  | some regs =>
    have one : regs ∈ f.regs.toList := by
      rw [selected]
      exact List.mem_singleton_self regs
    rw [selected] at reg
    exact forms_group _ inside regs one _ (List.contains_iff_mem.mp reg)

/-- The opcode of an instruction of a form is one after any prefixes. -/
theorem Form.Is.isOpcode {f : Form} {e : Encoding} {modrm : Byte} (known : f ∈ forms)
    (is : f.Is e modrm) (memory : modField modrm ≠ 3) : e.IsOpcode :=
  fun single => (is.entered known memory).isOpcode (is.1 ▸ single)

/-! ## The report -/

/-- A ModRM operand has one, two, four or eight bytes. -/
theorem Flags.modrmBytes_mem (d : Flags) {n : Nat} (sized : IsOperandSize n) :
    d.modrmBytes n ∈ [1, 2, 4, 8] := by
  have size : n ∈ [1, 2, 4, 8] := List.mem_cons_of_mem 1 sized
  have width : (if d.has Op.byteOp then 1 else n) ∈ [1, 2, 4, 8] := by
    split
    · decide
    · exact size
  by_cases source : d.SrcModRM
  · rw [modrmBytes, if_pos source]
    simp only [SrcModRM, List.mem_cons, List.not_mem_nil, or_false] at source
    rcases source with kind | kind | kind
    · have bytes : d.sourceBytes n = if d.has Op.byteOp then 1 else n := by
        simp only [sourceBytes, kind]
        rw [if_neg (by decide), if_neg (by decide), if_neg (by decide), if_true]
      rw [bytes]
      exact width
    · have bytes : d.sourceBytes n = 2 := by
        simp only [sourceBytes, kind]
        rw [if_neg (by decide), if_true]
      rw [bytes]
      decide
    · have bytes : d.sourceBytes n = 4 := by
        simp only [sourceBytes, kind]
        rw [if_neg (by decide), if_neg (by decide), if_true]
      rw [bytes]
      decide
  · rw [modrmBytes, if_neg source, destBytes]
    split
    · decide
    · exact width

/-- The operand of an entry has one, two, four or eight bytes. -/
theorem Flags.effectBytes_mem (d : Flags) {n : Nat} (sized : IsOperandSize n) :
    d.effectBytes n ∈ [1, 2, 4, 8] := by
  unfold effectBytes
  split
  · exact d.modrmBytes_mem (by decide)
  · exact d.modrmBytes_mem sized

/-- A length of one, two, four or eight bytes is kept in 16 bits, and is not zero. -/
theorem ofNat_width {bytes : Nat} (width : bytes ∈ [1, 2, 4, 8]) :
    (BitVec.ofNat 16 bytes).toNat = bytes ∧ BitVec.ofNat 16 bytes ≠ 0 := by
  simp only [List.mem_cons, List.not_mem_nil, or_false] at width
  rcases width with rfl | rfl | rfl | rfl <;> decide

/-- The access to the operand that an entry names. -/
theorem DecodeCache.reported_names {c : DecodeCache} (names : c.d.NamesOperand)
    (apart : c.d.OperandsApart) (alone : c.d.BitOpAlone) (memory : c.modrmMod ≠ 3)
    (accessed : ¬c.IsInvlpg) :
    ∃ addr, c.reported =
      some (c.d.examined ⟨addr, c.d.modrmBytes c.opBytes, !decide c.d.SrcModRM⟩) := by
  cases bitOp : c.d.has Op.bitOp with
  | false =>
    have reports : c.d.ReportsModRM :=
      ⟨names.modRM, names.operand, bitOp, names.notPush, names.explicit⟩
    exact ⟨_, reported_modRM reports apart memory accessed⟩
  | true =>
    have notSource : ¬c.d.SrcModRM := by
      rw [Flags.SrcModRM, (alone bitOp).2.1]
      decide
    have bytes : c.d.modrmBytes c.opBytes = c.d.destBytes c.opBytes := if_neg notSource
    rw [bytes, decide_eq_false notSource]
    exact ⟨_, reported_bitOp bitOp alone apart memory⟩

/-- `yy_get_memory_access` reports an instruction of a form with its operand in memory as its entry
says. -/
theorem yyGetMemoryAccess_form {m : Memory} {regs : PtRegs} {e : Encoding} (out : Access)
    (held : e.HeldAt m regs.ip) (names : (e.entry (m (e.tail regs.ip))).NamesOperand)
    (memory : modField (m (e.tail regs.ip)) ≠ 3)
    (notInvlpg : ¬(e.twobyte = true ∧ e.opcode = 0x01)) :
    ∃ acc, yyGetMemoryAccess m regs out = some acc ∧
      (acc.dataLength 0).toNat = (e.entry (m (e.tail regs.ip))).effectBytes e.opBytes ∧
      acc.dataLength 0 ≠ 0 ∧
      acc.isWrite 0 = (e.entry (m (e.tail regs.ip))).effectWrites := by
  obtain ⟨segSet, seg, found⟩ := yyGetMemoryAccess_reported held (e.isOpcode_of_modRM names.modRM)
  obtain ⟨three, invlpg, -⟩ := address_fields segSet seg names.modRM
  have carried := DecodeCache.carries_address m regs (.afterLookup m regs e segSet seg)
  have entry : _ = e.entry (m (e.tail regs.ip)) := carried.d
  have opBytes : _ = if (e.entry (m (e.tail regs.ip))).has Op.stack then 8 else e.opBytes :=
    carried.opBytes
  have apart := e.operandsApart (m (e.tail regs.ip))
  have alone := e.bitOpAlone (m (e.tail regs.ip))
  have notReg := mt three.mp memory
  have accessed := mt invlpg.mp fun all => notInvlpg ⟨all.1, all.2.1⟩
  have sized := DecodeCache.address_sized m regs e segSet seg
  rw [Flags.effectBytes, ← opBytes]
  rw [← entry] at names apart alone ⊢
  generalize (DecodeCache.afterLookup m regs e segSet seg).address m regs = c
    at found names apart alone notReg accessed sized ⊢
  obtain ⟨addr, reported⟩ := DecodeCache.reported_names names apart alone notReg accessed
  obtain ⟨same, nonzero⟩ := ofNat_width (c.d.modrmBytes_mem sized)
  refine ⟨_, found out, ?_⟩
  rw [reported, Access.fill_dataLength, Access.fill_isWrite, Flags.examined_bytes,
    Flags.examined_write, Flags.effectWrites]
  refine ⟨same, nonzero, ?_⟩
  cases examined : c.d.has Op.readOnly with
  | false =>
    rw [if_neg (fun both => Bool.false_ne_true both.2), Bool.not_false, Bool.and_true]
  | true =>
    rw [if_pos ⟨nonzero, rfl⟩, Bool.not_true, Bool.and_false]

/-- `yy_get_memory_access` reports nothing of an instruction that is missing in the tables. -/
theorem yyGetMemoryAccess_missing {m : Memory} {regs : PtRegs} {e : Encoding} (out : Access)
    (held : e.HeldAt m regs.ip) (isOpcode : e.IsOpcode)
    (undescribed : e.entry (m (e.tail regs.ip)) = 0) :
    yyGetMemoryAccess m regs out = some { out with dataLength := fun _ => 0 } := by
  obtain ⟨segSet, seg, found⟩ := yyGetMemoryAccess_reported held isOpcode
  have entry : _ = e.entry (m (e.tail regs.ip)) :=
    (DecodeCache.carries_address m regs (.afterLookup m regs e segSet seg)).d
  rw [found out, DecodeCache.reported_undescribed (.inr (entry.trans undescribed))]
  rfl

/-- A form of an instruction, executed on memory, is reported if the tables know it, and as what it
does exactly when they describe it. -/
theorem effect_reported_iff (m : Memory) (regs : PtRegs) (out : Access) (e : Encoding) (f : Form)
    (held : e.HeldAt m regs.ip) (known : f ∈ forms) (is : f.Is e (m (e.tail regs.ip)))
    (memory : modField (m (e.tail regs.ip)) ≠ 3) :
    ∃ acc, yyGetMemoryAccess m regs out = some acc ∧
      (acc.dataLength 0 ≠ 0 ↔ ¬f.operation.Missing) ∧
      ((acc.dataLength 0).toNat = f.bytes e.opcode e.opBytes ∧ acc.isWrite 0 = f.writes ↔
        f.operation.Described e.opBytes) := by
  have entered := is.entered known memory
  by_cases missing : f.operation.Missing
  · have decoded := yyGetMemoryAccess_missing out held (is.isOpcode known memory)
      (entered.missing missing)
    refine ⟨_, decoded, iff_of_false (fun nonzero => nonzero rfl) (fun found => found missing), ?_⟩
    refine iff_of_false (fun both => ?_) (fun described => described.found missing)
    exact (entered.accessed e.opBytes e.opBytes_sized).1.ne both.1
  · obtain ⟨acc, decoded, bytes, nonzero, writes⟩ := yyGetMemoryAccess_form out held
      (entered.names missing) memory (is.1 ▸ entered.notInvlpg)
    refine ⟨acc, decoded, iff_of_true nonzero missing, ?_⟩
    rw [bytes, writes]
    exact entered.effect e.opBytes e.opBytes_sized missing

/-- `lock cmpxchg %ecx, 0x10(%rbx)`. -/
def compareExchange : Encoding := { prefixes := [0xf0], twobyte := true, opcode := 0xb1 }

/-- A locked exchange is reported as a write of four bytes. -/
theorem effect_reported_iff_exchange :
    ∃ acc, yyGetMemoryAccess (.ofBytes 0x1000 [0xf0, 0x0f, 0xb1, 0x4b, 0x10]) (bitSetRegs 0)
        ⟨0, 0, fun _ => false⟩ = some acc ∧
      (acc.dataLength 0).toNat = 4 ∧ acc.isWrite 0 = true := by
  obtain ⟨acc, decoded, -, effect⟩ := effect_reported_iff
    (.ofBytes 0x1000 [0xf0, 0x0f, 0xb1, 0x4b, 0x10]) (bitSetRegs 0) ⟨0, 0, fun _ => false⟩
    compareExchange ⟨.CMPXCHG, true, [0xb0, 0xb1], none, Form.byOpcode, true⟩ (by decide)
    (by simp [forms]) (by decide) (by decide)
  exact ⟨acc, decoded, effect.mpr (by decide)⟩

end Drddr
