import Drddr.Disasm.WellFormed

/-!
# The access in closed form

The operand stages fill three descriptors, of which the first one in memory is reported, and a
stack slot or a read takes its place. Here the reported access is given directly by the entry and
by what the address stage found, with the address that the decoder reports and not with the one
that it computes for a string instruction.
-/

namespace Drddr

open Machine

/-- An access as it is reported. -/
structure Reported where
  addr : Word
  bytes : Nat
  write : Bool
  deriving DecidableEq

/-- The access to an operand, if that is in memory. -/
def Operand.access (o : Operand) (write : Bool) : Option Reported :=
  if o.type = .OP_MEM then some ⟨o.ptr, o.bytes, write⟩ else none

/-- The arrays with an access, or as they are. -/
def Access.fill (out : Access) : Option Reported → Access
  | some r => out.report r.addr (BitVec.ofNat 16 r.bytes) r.write
  | none => out

/-- The bytes of a destination in memory, by the operand size. -/
def Flags.destBytes (d : Flags) (opBytes : Nat) : Nat :=
  if d &&& Op.dstMask = Op.dstMem64 then 8 else if d.has Op.byteOp then 1 else opBytes

/-- An access whose operand may only be examined. -/
def Flags.examined (d : Flags) (r : Reported) : Reported :=
  if BitVec.ofNat 16 r.bytes ≠ 0 ∧ d.has Op.readOnly then { r with write := false } else r

/-- Filling the arrays with an access puts its address first. -/
@[simp] theorem Access.fill_dataAddr (out : Access) (r : Reported) :
    (out.fill (some r)).dataAddr 0 = r.addr := by simp [Access.fill]

/-- Filling the arrays with an access puts its length first. -/
@[simp] theorem Access.fill_dataLength (out : Access) (r : Reported) :
    (out.fill (some r)).dataLength 0 = BitVec.ofNat 16 r.bytes := by simp [Access.fill]

/-- Filling the arrays with an access puts its direction first. -/
@[simp] theorem Access.fill_isWrite (out : Access) (r : Reported) :
    (out.fill (some r)).isWrite 0 = r.write := by simp [Access.fill]

namespace Flags

variable (d : Flags) (r : Reported)

/-- The address of an access does not depend on whether its operand is only examined. -/
@[simp] theorem examined_addr : (d.examined r).addr = r.addr := by
  unfold examined
  split <;> rfl

/-- The length of an access does not depend on whether its operand is only examined. -/
@[simp] theorem examined_bytes : (d.examined r).bytes = r.bytes := by
  unfold examined
  split <;> rfl

/-- An operand that is only examined is not written. -/
theorem examined_write : (d.examined r).write =
    if BitVec.ofNat 16 r.bytes ≠ 0 ∧ d.has Op.readOnly then false else r.write := by
  unfold examined
  split <;> rfl

end Flags

namespace DecodeCache

variable (m : Memory) (c : DecodeCache)

/-- The ModRM byte names a register. -/
def NamesRegister : Prop := c.d.has Op.modRM = true ∧ c.modrmMod = 3

instance : Decidable c.NamesRegister := inferInstanceAs (Decidable (_ ∧ _))

/-- The access to the source. The address of a source at the source index is not the one that is
reported. -/
def sourceAccess : Option Reported :=
  if c.d.SrcModRM then
    if c.NamesRegister ∨ (c.d &&& Op.srcMask = Op.srcMem ∧ c.IsInvlpg) then none
    else some ⟨c.modrmEa, c.d.sourceBytes c.opBytes, false⟩
  else if c.d &&& Op.srcMask = Op.srcSI then some ⟨0, c.d.sourceBytes c.opBytes, false⟩
  else none

/-- The access to the second source. -/
def secondAccess : Option Reported :=
  if c.d &&& Op.src2Mask = Op.src2Mem16 then
    some ⟨c.modrmEa + BitVec.ofNat 64 (c.d.sourceBytes c.opBytes), 2, false⟩
  else none

/-- The destination of a bit operation whose source is a register. -/
def bitTarget : Word :=
  bitAddress { c with src := c.decodeRegisterOperand c.src false } (c.d.destBytes c.opBytes)

/-- The access to the destination. That of a destination at the destination index is reported
with address zero, like that of a source. -/
def destAccess : Option Reported :=
  if c.d.DstModRM then
    if c.NamesRegister then none
    else some ⟨if c.d.has Op.bitOp then c.bitTarget else c.modrmEa, c.d.destBytes c.opBytes, true⟩
  else if c.d &&& Op.dstMask = Op.dstDI then some ⟨0, c.d.destBytes c.opBytes, true⟩
  else none

/-- The access to the stack. -/
def stackAccess : Option Reported :=
  let bytes := c.d.sourceBytes c.opBytes
  if c.d.has Op.stack then
    if c.d.has Op.push then
      some ⟨c.regs 4 - (BitVec.ofNat 16 bytes).signExtend 64, bytes, true⟩
    else if c.d.has Op.pop then some ⟨c.regs 4, bytes, false⟩
    else none
  else none

/-- The reported access. -/
def reported : Option Reported :=
  if c.d.Explicit then
    (c.stackAccess <|> c.sourceAccess <|> c.secondAccess <|> c.destAccess).map c.d.examined
  else none

variable {c}

/-- A source in memory that the ModRM byte names is accessed. -/
theorem sourceAccess_modRM (source : c.d.SrcModRM) (memory : ¬c.NamesRegister)
    (accessed : ¬c.IsInvlpg) :
    c.sourceAccess = some ⟨c.modrmEa, c.d.sourceBytes c.opBytes, false⟩ := by
  have notExempt : ¬(c.NamesRegister ∨ (c.d &&& Op.srcMask = Op.srcMem ∧ c.IsInvlpg)) := by
    rintro (names | exempt)
    · exact memory names
    · exact accessed exempt.2
  rw [sourceAccess, if_pos source, if_neg notExempt]

/-- Only stack instructions access the stack. -/
theorem stackAccess_of_not_stack (notStack : c.d.has Op.stack = false) : c.stackAccess = none := by
  simp [stackAccess, notStack]

end DecodeCache

/-! ## Operands -/

/-- The bit offset of a bit operation is in a register. -/
def Flags.BitOfRegister (d : Flags) : Prop :=
  d.has Op.bitOp = true → d &&& Op.srcMask = Op.srcReg

instance (d : Flags) : Decidable d.BitOfRegister := inferInstanceAs (Decidable (_ → _))

set_option maxRecDepth 2048 in
/-- In the tables, the bit offset of a bit operation is in a register. -/
theorem Encoding.bitOfRegister (e : Encoding) (modrm : Byte) : (e.entry modrm).BitOfRegister :=
  of_decide_eq_true <| entry_forall (p := fun d => decide d.BitOfRegister) (by decide) (by decide)
    (by decide) (by decide) (by decide) e modrm

namespace DecodeCache

/-- An operand in memory has an access. -/
theorem access_of_mem {o : Operand} (memory : o.type = .OP_MEM) (write : Bool) :
    o.access write = some ⟨o.ptr, o.bytes, write⟩ := if_pos memory

/-- An operand that is not in memory has no access. -/
theorem access_of_ne {o : Operand} (other : o.type ≠ .OP_MEM) (write : Bool) :
    o.access write = none := if_neg other

/-- A source that the ModRM byte names is accessed at the decoded address, if it is in memory. -/
theorem access_srcMemCommon (c : DecodeCache) (src : Operand) (write : Bool) :
    (c.srcMemCommon src).access write =
      if c.NamesRegister then none else some ⟨c.modrmEa, src.bytes, write⟩ := by
  by_cases register : c.NamesRegister
  · have place : c.srcMemCommon src = { src with type := .OP_REG } := if_pos register
    rw [if_pos register, place]
    exact access_of_ne (by simp) write
  · have place : c.srcMemCommon src = { src with type := .OP_MEM, ptr := c.modrmEa, val := 0 } :=
      if_neg register
    rw [if_neg register, place]
    exact access_of_mem rfl write

/-- The source operand has the access of the closed form. -/
theorem access_srcOperand (m : Memory) {c : DecodeCache} (blank : c.src = .zero) :
    (c.srcOperand m).1.access false = c.sourceAccess := by
  have bytes : (c.srcOperand m).1.bytes = c.d.sourceBytes c.opBytes :=
    c.srcOperand_bytes m (by rw [blank]; rfl)
  have register : c.src.type ≠ .OP_MEM := by
    rw [blank]
    exact nofun
  unfold sourceAccess
  by_cases source : c.d.SrcModRM
  · rw [if_pos source]
    simp only [Flags.SrcModRM, List.mem_cons, List.not_mem_nil, or_false] at source
    rw [← bytes]
    rcases source with kind | kind | kind
    · have place : c.srcOperand m =
          (if c.IsInvlpg then ({ c.src with bytes := c.operandBytes }, c.eip)
            else (c.srcMemCommon { c.src with bytes := c.operandBytes }, c.eip)) := by
        simp only [srcOperand, kind]
        rw [if_neg (by decide), if_neg (by decide), if_neg (by decide), if_true]
        rfl
      rw [place]
      by_cases invlpg : c.IsInvlpg
      · rw [if_pos invlpg, if_pos (.inr ⟨kind, invlpg⟩)]
        exact if_neg register
      · rw [if_neg invlpg, access_srcMemCommon, srcMemCommon_bytes]
        simp only [invlpg, and_false, or_false]
    · have place : c.srcOperand m = (c.srcMemCommon { c.src with bytes := 2 }, c.eip) := by
        simp only [srcOperand, kind]
        rw [if_neg (by decide), if_true]
      have other : ¬c.d &&& Op.srcMask = Op.srcMem := by
        rw [kind]
        decide
      rw [place, access_srcMemCommon, srcMemCommon_bytes]
      simp only [other, false_and, or_false]
    · have place : c.srcOperand m = (c.srcMemCommon { c.src with bytes := 4 }, c.eip) := by
        simp only [srcOperand, kind]
        rw [if_neg (by decide), if_neg (by decide), if_true]
      have other : ¬c.d &&& Op.srcMask = Op.srcMem := by
        rw [kind]
        decide
      rw [place, access_srcMemCommon, srcMemCommon_bytes]
      simp only [other, false_and, or_false]
  · rw [if_neg source]
    by_cases index : c.d &&& Op.srcMask = Op.srcSI
    · have place : (c.srcOperand m).1 = { c.src with
          type := .OP_MEM
          bytes := c.operandBytes
          ea := c.registerAddress (c.regs 6)
          val := 0 } := by
        simp only [srcOperand, index]
        rw [if_neg (by decide), if_neg (by decide), if_neg (by decide), if_neg (by decide),
          if_neg (by decide), if_neg (by decide), if_neg (by decide), if_true]
      have memory : (c.srcOperand m).1.type = .OP_MEM := by rw [place]
      have ptr : (c.srcOperand m).1.ptr = 0 := by
        rw [place, blank]
        rfl
      rw [if_pos index, access_of_mem memory, ptr, bytes]
    · rw [if_neg index]
      exact access_of_ne (c.srcOperand_other m register source index) false

/-- The second source operand has the access of the closed form. -/
theorem access_src2Operand (m : Memory) {c : DecodeCache} (blank : c.src2 = .zero)
    (bytes : c.src.bytes = c.d.sourceBytes c.opBytes) :
    (c.src2Operand m).1.access false = c.secondAccess := by
  have register : c.src2.type ≠ .OP_MEM := by
    rw [blank]
    exact nofun
  unfold secondAccess
  by_cases after : c.d &&& Op.src2Mask = Op.src2Mem16
  · have place : (c.src2Operand m).1 = { c.src2 with
        type := .OP_MEM
        bytes := 2
        ptr := c.modrmEa + BitVec.ofNat 64 c.src.bytes
        val := 0 } := by
      simp only [src2Operand, after]
      rw [if_neg (by decide), if_neg (by decide), if_neg (by decide), if_neg (by decide), if_true]
    rw [if_pos after, place, ← bytes]
    exact access_of_mem rfl false
  · rw [if_neg after]
    exact access_of_ne (c.src2Operand_other m register after) false

/-- The destination operand has an access if the ModRM byte names one in memory or it is a string.
-/
theorem access_dstOperand {c : DecodeCache} (blank : c.dst = .zero) :
    c.dstOperand.access true =
      if c.d.DstModRM then
        if c.NamesRegister then none
        else some ⟨if c.d.has Op.bitOp then c.bitAddress (c.d.destBytes c.opBytes)
          else c.modrmEa, c.d.destBytes c.opBytes, true⟩
      else if c.d &&& Op.dstMask = Op.dstDI then some ⟨0, c.d.destBytes c.opBytes, true⟩
      else none := by
  have register : c.dst.type ≠ .OP_MEM := by
    rw [blank]
    exact nofun
  by_cases destination : c.d.DstModRM
  · rw [if_pos destination]
    simp only [Flags.DstModRM, List.mem_cons, List.not_mem_nil, or_false] at destination
    have notReg : ¬c.d &&& Op.dstMask = Op.dstReg := by
      rcases destination with kind | kind <;> rw [kind] <;> decide
    by_cases names : c.NamesRegister
    · have place : c.dstOperand = { c.dst with type := .OP_REG, bytes := c.operandBytes } := by
        unfold dstOperand
        simp only [notReg, destination, if_false, if_true]
        exact if_pos names
      rw [if_pos names, place]
      exact access_of_ne (by simp) true
    · have place : c.dstOperand = { c.dst with
          type := .OP_MEM
          bytes := c.d.destBytes c.opBytes
          ptr := if c.d.has Op.bitOp then c.bitAddress (c.d.destBytes c.opBytes) else c.modrmEa
          val := 0 } := by
        unfold dstOperand
        simp only [notReg, destination, if_false, if_true]
        exact if_neg names
      rw [if_neg names, place]
      exact access_of_mem rfl true
  · rw [if_neg destination]
    simp only [Flags.DstModRM, List.mem_cons, List.not_mem_nil, or_false] at destination
    by_cases index : c.d &&& Op.dstMask = Op.dstDI
    · have bytes : c.d.destBytes c.opBytes = c.operandBytes := by
        rw [Flags.destBytes, index, if_neg (by decide)]
        rfl
      have place : c.dstOperand = { c.dst with
          type := .OP_MEM
          bytes := c.operandBytes
          ea := c.registerAddress (c.regs 7)
          val := 0 } := by
        simp only [dstOperand, index]
        rw [if_neg (by decide), if_neg (by decide), if_neg (by decide), if_true]
      rw [if_pos index, place, blank, bytes]
      exact access_of_mem rfl true
    · rw [if_neg index]
      refine access_of_ne ?_ true
      simp only [dstOperand, destination, index, if_false]
      split_ifs
      · unfold decodeRegisterOperand
        simp only
        split_ifs <;> simp
      · simp
      · exact register

end DecodeCache

/-! ## The report -/

namespace Access

variable (out : Access) (c : DecodeCache)

/-- A report replaces another one. -/
theorem report_report (addr addr' : Word) (length length' : BitVec 16) (write write' : Bool) :
    (out.report addr length write).report addr' length' write' =
      out.report addr' length' write' := by
  simp [Access.report]

/-- The first operand in memory is reported. -/
theorem reportOperand_eq : out.reportOperand c =
    out.fill (c.src.access false <|> c.src2.access false <|> c.dst.access true) := by
  unfold reportOperand Operand.access
  split
  · rfl
  · split
    · rfl
    · split
      · rfl
      · rfl

/-- The stack slot takes the place of an operand in the arrays. -/
theorem reportStack_eq (operand : Option Reported)
    (bytes : c.src.bytes = c.d.sourceBytes c.opBytes) :
    (out.fill operand).reportStack c = out.fill (c.stackAccess <|> operand) := by
  have replaced (r : Reported) : (out.fill operand).report r.addr (BitVec.ofNat 16 r.bytes) r.write
      = out.fill (some r) := by
    cases operand with
    | none => rfl
    | some r' => exact report_report out _ _ _ _ _ _
  unfold reportStack DecodeCache.stackAccess
  rw [bytes]
  simp only
  split
  · split
    · exact replaced ⟨_, _, true⟩
    · split
      · exact replaced ⟨_, _, false⟩
      · rfl
  · rfl

/-- The direction of an operand that is only examined. -/
theorem reportReadOnly_eq (found : Option Reported) (fresh : out.dataLength 0 = 0) :
    (out.fill found).reportReadOnly c = out.fill (found.map c.d.examined) := by
  unfold reportReadOnly
  cases found with
  | none => exact if_neg fun both => both.1 fresh
  | some r =>
    rw [fill_dataLength, Option.map_some]
    unfold Flags.examined
    split
    · simp [fill, Access.report]
    · rfl

end Access

/-- The result stage reports the access, and nothing if there is none. -/
theorem DecodeCache.result_eq (m : Memory) {c : DecodeCache} {out : Access}
    (fresh : out.dataLength 0 = 0) (src : c.src = .zero) (src2 : c.src2 = .zero)
    (dst : c.dst = .zero) (bit : c.d.BitOfRegister) : c.result m out = out.fill c.reported := by
  unfold result reported
  by_cases implicit : c.d &&& Op.dstMask = Op.implicitOps
  · rw [if_pos implicit, if_neg fun explicit => explicit implicit]
    rfl
  · have explicit : c.d.Explicit := implicit
    rw [if_neg implicit, if_pos explicit]
    have bytes : (c.operands m).src.bytes = c.d.sourceBytes c.opBytes :=
      c.srcOperand_bytes m (by rw [src]; rfl)
    have first : (c.operands m).src.access false = c.sourceAccess := access_srcOperand m src
    have second : (c.operands m).src2.access false = c.secondAccess :=
      access_src2Operand m (c := { c with src := (c.srcOperand m).1, eip := (c.srcOperand m).2 })
        src2 bytes
    have third : (c.operands m).dst.access true = c.destAccess := by
      let filled : DecodeCache := { c.operands m with dst := c.dst }
      have found : filled.dstOperand.access true = _ := access_dstOperand dst
      have target (bitOp : c.d.has Op.bitOp = true) :
          filled.bitAddress (c.d.destBytes c.opBytes) = c.bitTarget := by
        have place : (c.srcOperand m).1 = c.decodeRegisterOperand c.src false := by
          simp only [srcOperand, bit bitOp, if_true]
        have offset : filled.src = c.decodeRegisterOperand c.src false := place
        rw [bitAddress, offset]
        rfl
      refine found.trans ?_
      unfold destAccess
      cases bitOp : c.d.has Op.bitOp with
      | false =>
        have entry : filled.d.has Op.bitOp = false := bitOp
        rw [entry]
        rfl
      | true =>
        have entry : filled.d.has Op.bitOp = true := bitOp
        have same : filled.bitAddress (filled.d.destBytes filled.opBytes) = c.bitTarget :=
          target bitOp
        rw [entry, same]
        rfl
    have slot : (c.operands m).stackAccess = c.stackAccess := rfl
    have entry : (c.operands m).d = c.d := rfl
    simp only
    rw [Access.reportOperand_eq, Access.reportStack_eq _ _ _ bytes,
      Access.reportReadOnly_eq _ _ _ fresh, first, second, third, slot, entry]

/-! ## Every instruction -/

/-- Nothing is reported of an instruction that the tables do not describe. -/
theorem DecodeCache.reported_undescribed {c : DecodeCache} (entry : c.d = Op.known ∨ c.d = 0) :
    c.reported = none := by
  unfold reported stackAccess sourceAccess secondAccess destAccess
  rcases entry with known | unknown
  · rw [known]
    rfl
  · rw [unknown]
    rfl

/-- `yy_get_memory_access` on an instruction reports the closed form, from what the address stage
has found. -/
theorem yyGetMemoryAccess_reported {m : Memory} {regs : PtRegs} {e : Encoding}
    (held : e.HeldAt m regs.ip) (isOpcode : e.IsOpcode) :
    ∃ segSet seg, ∀ out, yyGetMemoryAccess m regs out =
      some (Access.fill { out with dataLength := fun _ => 0 }
        ((DecodeCache.afterLookup m regs e segSet seg).address m regs).reported) := by
  obtain ⟨segSet, seg, found⟩ := yyGetMemoryAccess_found held isOpcode
  refine ⟨segSet, seg, fun out => (found out).trans (congrArg some ?_)⟩
  have carried := DecodeCache.carries_address m regs (.afterLookup m regs e segSet seg)
  have entry : ((DecodeCache.afterLookup m regs e segSet seg).address m regs).d
      = e.entry (m (e.tail regs.ip)) := carried.d
  by_cases undescribed : e.entry (m (e.tail regs.ip)) = Op.known ∨ e.entry (m (e.tail regs.ip)) = 0
  · rw [DecodeCache.reported_undescribed (entry ▸ undescribed)]
    exact if_pos undescribed
  · refine (if_neg undescribed).trans ?_
    refine DecodeCache.result_eq m rfl carried.src carried.src2 carried.dst ?_
    rw [entry]
    exact e.bitOfRegister _

end Drddr
