import Drddr.Disasm.Stack
import Drddr.Wp.Control

/-!
# Well-formed results

Whatever follows the prefixes, the decoder reads its tables inside their bounds, reports a length
that a debug register can watch or none, and reports nothing that it has not found itself.
-/

namespace Drddr

open Machine

/-! ## Tables -/

/-- The read of `group_table` or `group2_table` for an entry, if there is one: table and index. -/
def groupReads (d : Flags) (modrm : Byte) : List (List Flags × Nat) :=
  if d.has Op.group then
    [(if d.has Op.groupDual ∧ modrm >>> 6 = 3 then Op.group2Entries else Op.groupEntries,
      ((d &&& Op.groupMask) <<< 3).toNat + ((modrm >>> 3) &&& 7).toNat)]
  else []

/-- The table reads that follow the prefixes, in their order. -/
def DecodeCache.tableReads (m : Memory) (c : DecodeCache) : List (List Flags × Nat) :=
  (Op.opcodeEntries, c.b.toNat) ::
    (if opcodeTable c.b = 0 ∧ c.b = 0x0f then [(Op.twobyteEntries, (m c.eip).toNat)] else []) ++
    groupReads (c.opcodeBytes m).d (m (c.opcodeBytes m).eip)

/-- A group of an entry lies inside the two group tables. -/
def Flags.GroupInside (d : Flags) : Prop :=
  d.has Op.group = true → ((d &&& Op.groupMask) <<< 3).toNat + 7 < 96

instance (d : Flags) : Decidable d.GroupInside := inferInstanceAs (Decidable (_ → _))

set_option maxRecDepth 2048 in
/-- The group of every entry of the two opcode tables lies inside the two group tables. -/
theorem opcodeBytes_groupInside (m : Memory) (c : DecodeCache) :
    (c.opcodeBytes m).d.GroupInside := by
  have zero : decide (Flags.GroupInside 0) = true := by decide
  have single : decide (opcodeTable c.b).GroupInside = true :=
    getD_forall (p := fun d => decide d.GroupInside) zero (by decide) _
  have twobyte (b : Byte) : decide (twobyteTable b).GroupInside = true :=
    getD_forall (p := fun d => decide d.GroupInside) zero (by decide) _
  unfold DecodeCache.opcodeBytes
  simp only
  split
  · exact of_decide_eq_true (twobyte _)
  · exact of_decide_eq_true single

set_option maxRecDepth 2048 in
/-- The opcode tables have 256 entries each, and the group tables 96. -/
theorem table_lengths : Op.opcodeEntries.length = 256 ∧ Op.twobyteEntries.length = 256 ∧
    Op.groupEntries.length = 96 ∧ Op.group2Entries.length = 96 := by
  decide

/-- The register bits are below eight. -/
theorem regBits_le : ∀ modrm : Byte, ((modrm >>> 3) &&& 7).toNat ≤ 7 := by
  decide

/-- Every read of a table is inside it. -/
theorem tableReads_inside (m : Memory) (c : DecodeCache) :
    ∀ read ∈ c.tableReads m, read.2 < read.1.length := by
  obtain ⟨opcode, twobyte, group, group2⟩ := table_lengths
  intro read member
  simp only [DecodeCache.tableReads, List.mem_append, List.mem_cons] at member
  rcases member with (rfl | escaped) | grouped
  · rw [opcode]
    exact c.b.isLt
  · split at escaped
    · cases List.mem_singleton.mp escaped
      rw [twobyte]
      exact (m c.eip).isLt
    · exact absurd escaped List.not_mem_nil
  · unfold groupReads at grouped
    split at grouped
    · rename_i inGroup
      cases List.mem_singleton.mp grouped
      have start := opcodeBytes_groupInside m c inGroup
      have bits := regBits_le (m (c.opcodeBytes m).eip)
      split
      · rw [group2]
        omega
      · rw [group]
        omega
    · exact absurd grouped List.not_mem_nil

/-- The entry that the decoder goes on with is that of the last read. -/
theorem lookup_d (m : Memory) (c : DecodeCache) :
    (c.tableReads m).getLast?.map (fun read => read.1.getD read.2 0) = some (c.lookup m).d := by
  have sizes : c.rexW.opcodeBytes m =
      { c.opcodeBytes m with opBytes := (c.rexW.opcodeBytes m).opBytes } := by
    rw [DecodeCache.rexW_eq]
    unfold DecodeCache.opcodeBytes
    simp only
    split
    · rfl
    · rfl
  have found : (c.lookup m).d = groupEntry (c.opcodeBytes m).d (m (c.opcodeBytes m).eip) := by
    rw [DecodeCache.lookup, sizes]
    unfold DecodeCache.groupDecode
    simp only
    split
    · rfl
    · rename_i single
      exact (groupEntry_of_not_group _ (Bool.eq_false_of_not_eq_true single)).symm
  rw [found]
  by_cases inGroup : (c.opcodeBytes m).d.has Op.group = true
  · rw [DecodeCache.tableReads, groupReads, if_pos inGroup, List.getLast?_concat, groupEntry,
      if_pos inGroup]
    simp only [Option.map_some]
    split
    · rfl
    · rfl
  · rw [DecodeCache.tableReads, groupReads, if_neg inGroup, List.append_nil,
      groupEntry_of_not_group _ (Bool.eq_false_of_not_eq_true inGroup), DecodeCache.opcodeBytes]
    simp only
    split
    · rfl
    · rfl

/-! ## Lengths -/

/-- The length in bytes of an access, or zero. -/
def IsAccessLength (bytes : Nat) : Prop := bytes ∈ [0, 1, 2, 4, 8]

instance (bytes : Nat) : Decidable (IsAccessLength bytes) := inferInstanceAs (Decidable (_ ∈ _))

/-- The operand sizes that the prefixes select. -/
def IsOperandSize (bytes : Nat) : Prop := bytes ∈ [2, 4, 8]

instance (bytes : Nat) : Decidable (IsOperandSize bytes) := inferInstanceAs (Decidable (_ ∈ _))

/-- Operand sizes are lengths of accesses. -/
theorem isAccessLength_of_size {bytes : Nat} (sized : IsOperandSize bytes) :
    IsAccessLength bytes :=
  List.mem_cons_of_mem 0 (List.mem_cons_of_mem 1 sized)

namespace DecodeCache

/-- An operand is as long as an access. -/
theorem operandBytes_isAccessLength {c : DecodeCache} (sized : IsOperandSize c.opBytes) :
    IsAccessLength c.operandBytes := by
  unfold operandBytes
  split
  · decide
  · exact isAccessLength_of_size sized

/-- An operand has bytes. -/
theorem operandBytes_ne_zero {c : DecodeCache} (sized : IsOperandSize c.opBytes) :
    c.operandBytes ≠ 0 := by
  unfold operandBytes
  split
  · decide
  · intro zero
    rw [zero] at sized
    exact absurd sized (by decide)

/-- The source operand is as long as an access too. -/
theorem srcOperand_isAccessLength (m : Memory) {c : DecodeCache} (sized : IsOperandSize c.opBytes)
    (blank : c.src.bytes = 0) : IsAccessLength (c.srcOperand m).1.bytes := by
  have operand : IsAccessLength (if c.d.has Op.byteOp then 1 else c.opBytes) :=
    operandBytes_isAccessLength sized
  rw [c.srcOperand_bytes m blank]
  unfold Flags.sourceBytes
  simp only
  generalize (if c.d.has Op.byteOp = true then 1 else c.opBytes) = bytes at operand ⊢
  split_ifs <;> first | exact operand | decide

/-- The second source operand is as long as an access. -/
theorem src2Operand_isAccessLength (m : Memory) {c : DecodeCache} (blank : c.src2.bytes = 0) :
    IsAccessLength (c.src2Operand m).1.bytes := by
  have zero : IsAccessLength c.src2.bytes := by
    rw [blank]
    decide
  have one : IsAccessLength 1 := by decide
  have two : IsAccessLength 2 := by decide
  unfold src2Operand
  simp only
  split_ifs <;> first | exact zero | exact one | exact two

/-- The destination operand is as long as an access. -/
theorem dstOperand_isAccessLength {c : DecodeCache} (sized : IsOperandSize c.opBytes)
    (blank : c.dst.bytes = 0) : IsAccessLength c.dstOperand.bytes := by
  have operand := operandBytes_isAccessLength sized
  have zero : IsAccessLength c.dst.bytes := by
    rw [blank]
    decide
  have one : IsAccessLength 1 := by decide
  have eight : IsAccessLength 8 := by decide
  have register (inhibit : Bool) :
      IsAccessLength (c.decodeRegisterOperand c.dst inhibit).bytes := by
    unfold decodeRegisterOperand
    simp only
    split
    · exact one
    · exact isAccessLength_of_size sized
  unfold dstOperand
  simp only
  split_ifs <;> first | exact register _ | exact operand | exact zero | exact eight

end DecodeCache

/-! ## The arrays -/

namespace Access

/-- No element but the first is used, and that with the length of an access. -/
structure Sized (acc : Access) : Prop where
  rest : ∀ k ≠ 0, acc.dataLength k = 0
  first : ∃ bytes, IsAccessLength bytes ∧ acc.dataLength 0 = BitVec.ofNat 16 bytes

/-- Two contents of the arrays have the same lengths, and the same access if there is one. -/
structure Agree (acc acc' : Access) : Prop where
  length : acc.dataLength = acc'.dataLength
  access : acc.dataLength 0 ≠ 0 →
    acc.dataAddr 0 = acc'.dataAddr 0 ∧ acc.isWrite 0 = acc'.isWrite 0

/-- Arrays in which all lengths are zero have no access. -/
theorem sized_zero (out : Access) : Sized { out with dataLength := fun _ => 0 } :=
  ⟨fun _ _ => rfl, 0, by decide, rfl⟩

/-- Two contents of the arrays with all lengths set to zero agree. -/
theorem agree_zero (out out' : Access) :
    Agree { out with dataLength := fun _ => 0 } { out' with dataLength := fun _ => 0 } :=
  ⟨rfl, fun length => absurd rfl length⟩

variable {acc acc' : Access} {c : DecodeCache}

/-- A report puts the address of the access first. -/
@[simp] theorem report_dataAddr (addr : Word) (length : BitVec 16) (write : Bool) :
    (acc.report addr length write).dataAddr 0 = addr := by
  simp [Access.report]

/-- A report puts the length of the access first and leaves the other lengths. -/
@[simp] theorem report_dataLength (addr : Word) (length : BitVec 16) (write : Bool) :
    (acc.report addr length write).dataLength = Function.update acc.dataLength 0 length := rfl

/-- A report puts the direction of the access first. -/
@[simp] theorem report_isWrite (addr : Word) (length : BitVec 16) (write : Bool) :
    (acc.report addr length write).isWrite 0 = write := by
  simp [Access.report]

/-- A report of a length of an access keeps the arrays well formed. -/
theorem Sized.report (sized : acc.Sized) {bytes : Nat} (length : IsAccessLength bytes) (addr : Word)
    (write : Bool) : (acc.report addr (BitVec.ofNat 16 bytes) write).Sized := by
  refine ⟨fun k other => ?_, bytes, length, by simp⟩
  rw [report_dataLength, Function.update_of_ne other]
  exact sized.rest k other

/-- A report assigns the whole access, so two contents agree after it. -/
theorem Agree.report (agree : acc.Agree acc') (addr : Word) (length : BitVec 16) (write : Bool) :
    (acc.report addr length write).Agree (acc'.report addr length write) :=
  ⟨by simp [agree.length], fun _ => by simp⟩

/-- The stages of the report, with operands of the lengths of accesses. -/
theorem Sized.reportOperand (sized : acc.Sized) (src : IsAccessLength c.src.bytes)
    (src2 : IsAccessLength c.src2.bytes) (dst : IsAccessLength c.dst.bytes) :
    (acc.reportOperand c).Sized := by
  unfold Access.reportOperand
  split
  · exact sized.report src _ _
  · split
    · exact sized.report src2 _ _
    · split
      · exact sized.report dst _ _
      · exact sized

/-- Two contents that agree still do after a report of the operands. -/
theorem Agree.reportOperand (agree : acc.Agree acc') (c : DecodeCache) :
    (acc.reportOperand c).Agree (acc'.reportOperand c) := by
  unfold Access.reportOperand
  split
  · exact agree.report _ _ _
  · split
    · exact agree.report _ _ _
    · split
      · exact agree.report _ _ _
      · exact agree

/-- A report of the access of a stack instruction keeps the arrays well formed. -/
theorem Sized.reportStack (sized : acc.Sized) (src : IsAccessLength c.src.bytes) :
    (acc.reportStack c).Sized := by
  unfold Access.reportStack
  simp only
  split
  · split
    · exact sized.report src _ _
    · split
      · exact sized.report src _ _
      · exact sized
  · exact sized

/-- Two contents that agree still do after a report of a stack slot. -/
theorem Agree.reportStack (agree : acc.Agree acc') (c : DecodeCache) :
    (acc.reportStack c).Agree (acc'.reportStack c) := by
  unfold Access.reportStack
  simp only
  split
  · split
    · exact agree.report _ _ _
    · split
      · exact agree.report _ _ _
      · exact agree
  · exact agree

/-- The direction of an operand that is only examined. -/
theorem Sized.reportReadOnly (sized : acc.Sized) (c : DecodeCache) :
    (acc.reportReadOnly c).Sized := by
  unfold Access.reportReadOnly
  split
  · exact ⟨sized.rest, sized.first⟩
  · exact sized

/-- Two contents that agree still do after the direction of an examined operand is corrected. -/
theorem Agree.reportReadOnly (agree : acc.Agree acc') (c : DecodeCache) :
    (acc.reportReadOnly c).Agree (acc'.reportReadOnly c) := by
  unfold Access.reportReadOnly
  rw [← agree.length]
  split
  · exact ⟨rfl, fun length => ⟨(agree.access length).1, by simp⟩⟩
  · exact agree

end Access

namespace DecodeCache

variable {acc acc' : Access} {c : DecodeCache}

/-- The result of the operand stages is well formed. -/
theorem result_sized (m : Memory) (sized : acc.Sized) (size : IsOperandSize c.opBytes)
    (src : c.src.bytes = 0) (src2 : c.src2.bytes = 0) (dst : c.dst.bytes = 0) :
    (c.result m acc).Sized := by
  have srcLength := srcOperand_isAccessLength m size src
  have src2Length := src2Operand_isAccessLength m
    (c := { c with src := (c.srcOperand m).1, eip := (c.srcOperand m).2 }) src2
  have dstLength : IsAccessLength (c.operands m).dst.bytes := dstOperand_isAccessLength size dst
  unfold result
  split
  · exact sized
  · exact ((sized.reportOperand srcLength src2Length dstLength).reportStack
      srcLength).reportReadOnly _

/-- The results of the operand stages agree if the contents of the arrays before them did. -/
theorem result_agree (m : Memory) (agree : acc.Agree acc') (c : DecodeCache) :
    (c.result m acc).Agree (c.result m acc') := by
  unfold result
  split
  · exact agree
  · exact ((agree.reportOperand _).reportStack _).reportReadOnly _

end DecodeCache

/-! ## Every memory -/

/-- Up to the first byte that is not a prefix, a memory holds prefixes. -/
theorem exists_prefixes (m : Memory) (n : Nat) (a : Word)
    (last : isPrefix (m (a + BitVec.ofNat 64 n)) = false) :
    ∃ prefixes : List Byte, (∀ p ∈ prefixes, isPrefix p = true) ∧ m.HoldsAt a prefixes ∧
      isPrefix (m (a + BitVec.ofNat 64 prefixes.length)) = false := by
  induction n generalizing a with
  | zero => exact ⟨[], by simp, trivial, last⟩
  | succ n ih =>
    have next (k : Nat) : a + BitVec.ofNat 64 (k + 1) = a + 1#64 + BitVec.ofNat 64 k := by
      rw [Nat.add_comm, add_ofNat_add]
    cases first : isPrefix (m a) with
    | false => exact ⟨[], by simp, trivial, by simpa using first⟩
    | true =>
      obtain ⟨prefixes, all, held, ends⟩ := ih (a + 1#64) (by rw [← next]; exact last)
      refine ⟨m a :: prefixes, ?_, ⟨rfl, held⟩, ?_⟩
      · simpa [first] using all
      · rw [List.length_cons, next]
        exact ends

/-- A memory in which the prefixes end holds an opcode after them. -/
theorem Encoding.exists_heldAt (m : Memory) (a : Word)
    (ends : ∃ n : Nat, isPrefix (m (a + BitVec.ofNat 64 n)) = false) :
    ∃ e : Encoding, e.HeldAt m a ∧ e.IsOpcode := by
  obtain ⟨n, last⟩ := ends
  obtain ⟨prefixes, all, held, after⟩ := exists_prefixes m n a last
  by_cases escape : m (a + BitVec.ofNat 64 prefixes.length) = 0x0f
  · refine ⟨⟨prefixes, true, m (a + BitVec.ofNat 64 prefixes.length + 1#64)⟩, ⟨all, ?_⟩, nofun⟩
    exact (m.holdsAt_append _ _ _).mpr ⟨held, escape, rfl, trivial⟩
  · refine ⟨⟨prefixes, false, m (a + BitVec.ofNat 64 prefixes.length)⟩, ⟨all, ?_⟩,
      fun _ => ⟨after, escape⟩⟩
    exact (m.holdsAt_append _ _ _).mpr ⟨held, rfl, trivial⟩

/-- The prefixes select an operand size. -/
theorem Encoding.opBytes_sized (e : Encoding) : IsOperandSize e.opBytes := by
  unfold Encoding.opBytes
  split_ifs <;> decide

/-- The address stage leaves an operand size. -/
theorem DecodeCache.address_sized (m : Memory) (regs : PtRegs) (e : Encoding) (segSet : Bool)
    (seg : Byte) : IsOperandSize ((afterLookup m regs e segSet seg).address m regs).opBytes := by
  have replaced : _ = (afterLookup m regs e segSet seg).stackBytes :=
    (carries_address m regs (afterLookup m regs e segSet seg)).opBytes
  rw [replaced, stackBytes]
  split
  · decide
  · exact e.opBytes_sized

/-- The decoder leaves one access at most in the arrays, with a legal length, whatever was in them
before. -/
theorem yyGetMemoryAccess_sized {m : Memory} {regs : PtRegs} {e : Encoding}
    (held : e.HeldAt m regs.ip) (isOpcode : e.IsOpcode) :
    ∃ leave : Access → Access, (∀ out, yyGetMemoryAccess m regs out = some (leave out)) ∧
      (∀ out, (leave out).Sized) ∧ ∀ out out', (leave out).Agree (leave out') := by
  obtain ⟨segSet, seg, found⟩ := yyGetMemoryAccess_found held isOpcode
  have carried := DecodeCache.carries_address m regs (.afterLookup m regs e segSet seg)
  have size := DecodeCache.address_sized m regs e segSet seg
  refine ⟨_, found, fun out => ?_, fun out out' => ?_⟩
  · split
    · exact Access.sized_zero out
    · exact DecodeCache.result_sized m (Access.sized_zero out) size
        (congrArg Operand.bytes carried.src) (congrArg Operand.bytes carried.src2)
        (congrArg Operand.bytes carried.dst)
  · split
    · exact Access.agree_zero out out'
    · exact DecodeCache.result_agree m (Access.agree_zero out out') _

/-- The length in bits of an access is eight times its bytes. -/
theorem bitLength_toInt {bytes : Nat} (length : IsAccessLength bytes) :
    (BitVec.ofNat 16 bytes * 8).toInt = 8 * bytes := by
  simp only [IsAccessLength, List.mem_cons, List.not_mem_nil, or_false] at length
  rcases length with rfl | rfl | rfl | rfl | rfl
  · decide
  · decide
  · decide
  · decide
  · decide

/-- The length in bits of an access that has bytes is one that a debug register can watch. -/
theorem bitLength_legal {bytes : Nat} (length : IsAccessLength bytes) (nonzero : bytes ≠ 0) :
    LegalLength (8 * bytes) := by
  simp only [IsAccessLength, List.mem_cons, List.not_mem_nil, or_false] at length
  rcases length with rfl | rfl | rfl | rfl | rfl
  · exact absurd rfl nonzero
  · decide
  · decide
  · decide
  · decide

/-- No length of an access but zero is zero in sixteen bits. -/
theorem ofNat_ne_zero {bytes : Nat} (length : IsAccessLength bytes) (nonzero : bytes ≠ 0) :
    BitVec.ofNat 16 bytes ≠ 0 := by
  intro zero
  have bits := bitLength_toInt length
  rw [zero] at bits
  change (0 : Int) = 8 * bytes at bits
  omega

/-- Whatever bytes follow `regs->ip`, if one of them is not a prefix: the tables are read inside
their bounds, and the decoder goes on with the entry read last; the first length is that of an
access or zero and the others are zero; address and direction that go with a length do not depend
on what was in the arrays; and the length in bits is zero or has the processor's code. -/
theorem decoder_wellFormed (m : Memory) (regs : PtRegs)
    (ends : ∃ n : Nat, isPrefix (m (regs.ip + BitVec.ofNat 64 n)) = false) :
    (∃ c, DecodeCache.legacyPrefixes m (2 ^ 64) (.init regs) = some c ∧
      (∀ read ∈ c.tableReads m, read.2 < read.1.length) ∧
      (c.tableReads m).getLast?.map (fun read => read.1.getD read.2 0) = some (c.lookup m).d) ∧
    ∃ (addr : Word) (bytes : Nat) (write : Bool), bytes ∈ [0, 1, 2, 4, 8] ∧
      ∀ out, ∃ acc info, yyGetMemoryAccess m regs out = some acc ∧
        getDataInfo m regs out = some info ∧
        (∀ k ≠ 0, acc.dataLength k = 0) ∧ acc.dataLength 0 = BitVec.ofNat 16 bytes ∧
        (bytes ≠ 0 → acc.dataAddr 0 = addr ∧ acc.isWrite 0 = write) ∧
        (info.dataLength 0).toInt = 8 * bytes ∧
        (bytes ≠ 0 → LegalLength (info.dataLength 0).toInt ∧
          some ((wpLenToFlag (info.dataLength 0).toInt).setWidth 2) = lenCode bytes) := by
  obtain ⟨e, held, isOpcode⟩ := Encoding.exists_heldAt m regs.ip ends
  constructor
  · obtain ⟨segSet, seg, found⟩ := DecodeCache.lookup_spec held isOpcode
    obtain ⟨c, passed, -⟩ := Option.map_eq_some_iff.mp found
    exact ⟨c, passed, tableReads_inside m c, lookup_d m c⟩
  · obtain ⟨leave, decoded, sized, agree⟩ := yyGetMemoryAccess_sized held isOpcode
    -- What the call leaves in one content of the arrays it leaves in every other.
    let blank : Access := ⟨fun _ => 0, fun _ => 0, fun _ => false⟩
    obtain ⟨bytes, length, first⟩ := (sized blank).first
    refine ⟨(leave blank).dataAddr 0, bytes, (leave blank).isWrite 0, length, fun out => ?_⟩
    have here : (leave out).dataLength 0 = BitVec.ofNat 16 bytes := by
      rw [(agree out blank).length, first]
    let info : Access := { leave out with
      dataLength := Function.update (leave out).dataLength 0 ((leave out).dataLength 0 * 8) }
    have bits : (info.dataLength 0).toInt = 8 * bytes := by
      have stored : info.dataLength 0 = (leave out).dataLength 0 * 8 := by simp [info]
      rw [stored, here, bitLength_toInt length]
    refine ⟨leave out, info, decoded out, ?_, (sized out).rest, here, fun nonzero => ?_, bits,
      fun nonzero => ?_⟩
    · rw [getDataInfo, decoded out]
      rfl
    · exact (agree out blank).access (here ▸ ofNat_ne_zero length nonzero)
    · have legal := bitLength_legal length nonzero
      have code := WpTable.wpLenToFlag_lenCode legal
      rw [Int.mul_ediv_cancel_left _ (by decide)] at code
      rw [bits]
      exact ⟨legal, code⟩

/-- Two prefixes and a store: `mov %ax, 0x10(%ebx)`. -/
def storeAfterPrefixes : Memory := .ofBytes 0x1000 [0x66, 0x67, 0x89, 0x43, 0x10]

/-- Registers before the store behind its prefixes. -/
def storeAfterPrefixesRegs : PtRegs := { (default : PtRegs) with ip := 0x1000, bx := 0x20000 }

/-- Whatever is in the arrays, the decoder reports two bytes there, at the same address and in the
same direction, and their length has a code. -/
theorem decoder_wellFormed_store :
    ∃ (addr : Word) (write : Bool), ∀ out, ∃ acc info,
      yyGetMemoryAccess storeAfterPrefixes storeAfterPrefixesRegs out = some acc ∧
      getDataInfo storeAfterPrefixes storeAfterPrefixesRegs out = some info ∧
      acc.dataLength 0 = 2 ∧ acc.dataAddr 0 = addr ∧ acc.isWrite 0 = write ∧
      (info.dataLength 0).toInt = 16 ∧ LegalLength (info.dataLength 0).toInt := by
  obtain ⟨-, addr, bytes, write, length, every⟩ := decoder_wellFormed storeAfterPrefixes
    storeAfterPrefixesRegs ⟨2, by decide⟩
  have reported : (yyGetMemoryAccess storeAfterPrefixes storeAfterPrefixesRegs
      ⟨0, 0, fun _ => false⟩).map (·.dataLength 0) = some 2 := by decide
  have two : bytes = 2 := by
    obtain ⟨acc, info, decoded, -, -, here, -⟩ := every ⟨0, 0, fun _ => false⟩
    rw [decoded, Option.map_some, here, Option.some.injEq] at reported
    have small : bytes < 9 := by
      simp only [List.mem_cons, List.not_mem_nil, or_false] at length
      omega
    bv_omega
  subst two
  refine ⟨addr, write, fun out => ?_⟩
  obtain ⟨acc, info, decoded, asked, -, here, assigned, bits, legal⟩ := every out
  obtain ⟨address, direction⟩ := assigned (by decide)
  exact ⟨acc, info, decoded, asked, here, address, direction, bits, (legal (by decide)).1⟩

end Drddr
