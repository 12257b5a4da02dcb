import Drddr.Disasm.Reported
import Drddr.Disasm.RipRelative

/-!
# Base and index

The decoder on one instruction with two register files: what is reported of a ModRM operand differs
by the base and by the scaled index that the encoding names, and by nothing else.
-/

namespace Drddr

open Machine

/-! ## A ModRM operand -/

/-- The bytes of the ModRM operand of an entry. -/
def Flags.modrmBytes (d : Flags) (opBytes : Nat) : Nat :=
  if d.SrcModRM then d.sourceBytes opBytes else d.destBytes opBytes

/-- An entry with a ModRM byte and decoded operands has no operand at a string register or after
another one, and a stack slot only if it pushes. -/
def Flags.OperandsApart (d : Flags) : Prop :=
  d.Explicit → d.has Op.modRM = true →
    d &&& Op.srcMask ≠ Op.srcSI ∧ d &&& Op.src2Mask ≠ Op.src2Mem16 ∧ d &&& Op.dstMask ≠ Op.dstDI ∧
      (d.has Op.stack = true → d.has Op.push = false → d.has Op.pop = false)

instance (d : Flags) : Decidable d.OperandsApart := inferInstanceAs (Decidable (_ → _ → _))

set_option maxRecDepth 2048 in
/-- In the tables, an entry with a ModRM byte has no other operand in memory. -/
theorem Encoding.operandsApart (e : Encoding) (modrm : Byte) : (e.entry modrm).OperandsApart :=
  of_decide_eq_true <| entry_forall (p := fun d => decide d.OperandsApart) (by decide) (by decide)
    (by decide) (by decide) (by decide) e modrm

namespace DecodeCache

variable {c : DecodeCache}

/-- An instruction with a ModRM byte accesses the stack only if it pushes. -/
theorem stackAccess_modRM (modRM : c.d.has Op.modRM = true) (explicit : c.d.Explicit)
    (notPush : c.d.has Op.push = false) (apart : c.d.OperandsApart) : c.stackAccess = none := by
  unfold stackAccess
  simp only [notPush, Bool.false_eq_true, if_false]
  cases stack : c.d.has Op.stack with
  | false => rfl
  | true =>
    rw [(apart explicit modRM).2.2.2 stack notPush]
    rfl

/-- The access to a destination in memory that the ModRM byte names. -/
theorem reported_destination (modRM : c.d.has Op.modRM = true) (explicit : c.d.Explicit)
    (notPush : c.d.has Op.push = false) (apart : c.d.OperandsApart) (notSource : ¬c.d.SrcModRM)
    (destination : c.d.DstModRM) (memory : c.modrmMod ≠ 3) :
    c.reported = some (c.d.examined
      ⟨if c.d.has Op.bitOp then c.bitTarget else c.modrmEa, c.d.destBytes c.opBytes, true⟩) := by
  have only := apart explicit modRM
  have first : c.sourceAccess = none := by
    rw [sourceAccess, if_neg notSource, if_neg only.1]
  have second : c.secondAccess = none := if_neg only.2.1
  unfold reported
  rw [if_pos explicit, stackAccess_modRM modRM explicit notPush apart, first, second, destAccess,
    if_pos destination, if_neg fun names => memory names.2]
  rfl

/-- A ModRM operand in memory is reported at its address, with the width and direction of its entry.
-/
theorem reported_modRM (reports : c.d.ReportsModRM) (apart : c.d.OperandsApart)
    (memory : c.modrmMod ≠ 3) (accessed : ¬c.IsInvlpg) :
    c.reported = some (c.d.examined
      ⟨c.modrmEa, c.d.modrmBytes c.opBytes, !decide c.d.SrcModRM⟩) := by
  by_cases source : c.d.SrcModRM
  · have filled := sourceAccess_modRM source (fun names => memory names.2) accessed
    unfold reported
    rw [if_pos reports.explicit,
      stackAccess_modRM reports.modRM reports.explicit reports.notPush apart, filled,
      Flags.modrmBytes, if_pos source, decide_eq_true source]
    rfl
  · have destination : c.d.DstModRM := reports.operand.resolve_left source
    rw [reported_destination reports.modRM reports.explicit reports.notPush apart source
      destination memory, reports.notBitOp, Flags.modrmBytes, if_neg source, decide_eq_false source]
    rfl

/-- An entry with a ModRM byte whose ModRM operand is not reported reports nothing. -/
theorem reported_none (modRM : c.d.has Op.modRM = true) (notPush : c.d.has Op.push = false)
    (apart : c.d.OperandsApart) (source : c.d.Explicit → c.d.SrcModRM →
      c.NamesRegister ∨ (c.d &&& Op.srcMask = Op.srcMem ∧ c.IsInvlpg))
    (destination : c.d.Explicit → c.d.DstModRM → c.NamesRegister) : c.reported = none := by
  unfold reported
  by_cases explicit : c.d.Explicit
  · have only := apart explicit modRM
    have first : c.sourceAccess = none := by
      unfold sourceAccess
      split
      · exact if_pos (source explicit ‹_›)
      · exact if_neg only.1
    have second : c.secondAccess = none := if_neg only.2.1
    have third : c.destAccess = none := by
      unfold destAccess
      split
      · exact if_pos (destination explicit ‹_›)
      · exact if_neg only.2.2.1
    rw [if_pos explicit, stackAccess_modRM modRM explicit notPush apart, first, second, third]
    rfl
  · exact if_neg explicit

end DecodeCache

/-- What the address stage finds of a ModRM operand in memory: no register, its address, and
whether it is that of invlpg. -/
theorem address_memory {m : Memory} {regs : PtRegs} {e : Encoding} (segSet : Bool) (seg : Byte)
    (modRM : (e.entry (m (e.tail regs.ip))).has Op.modRM = true)
    (form : IsMemoryForm (m (e.tail regs.ip))) :
    let c := (DecodeCache.afterLookup m regs e segSet seg).address m regs
    let f := e.addressForm m regs.ip
    c.d = e.entry (m (e.tail regs.ip)) ∧ c.modrmMod ≠ 3 ∧
      (c.IsInvlpg ↔ e.twobyte = true ∧ e.opcode = 0x01 ∧
        extendReg (e.rex.getLsbD 2) (regField (m (e.tail regs.ip))) = 7) ∧
      c.modrmEa = truncateAddress e.addr32 (f.registers regs + f.dispRead m) := by
  obtain ⟨three, invlpg, -⟩ := address_fields segSet seg modRM
  refine ⟨(DecodeCache.carries_address m regs _).d, mt three.mp form.1, invlpg, ?_⟩
  rw [DecodeCache.address_modRM modRM form]
  rfl

/-- The operand size of the instruction. -/
def Encoding.operandSize (e : Encoding) (modrm : Byte) : Nat :=
  if (e.entry modrm).has Op.stack then 8 else e.opBytes

/-- `yy_get_memory_access` reports a ModRM operand in memory. -/
theorem yyGetMemoryAccess_reports {m : Memory} {regs : PtRegs} {e : Encoding} (out : Access)
    (accesses : e.AccessesModRM m regs.ip) :
    let d := e.entry (m (e.tail regs.ip))
    let f := e.addressForm m regs.ip
    yyGetMemoryAccess m regs out =
      some (Access.fill { out with dataLength := fun _ => 0 } (some (d.examined
        ⟨truncateAddress e.addr32 (f.registers regs + f.dispRead m),
          d.modrmBytes (e.operandSize (m (e.tail regs.ip))), !decide d.SrcModRM⟩))) := by
  have reports := accesses.reports
  have isOpcode := e.isOpcode_of_modRM reports.modRM
  obtain ⟨segSet, seg, found⟩ := yyGetMemoryAccess_reported accesses.held isOpcode
  obtain ⟨entry, memory, invlpg, ea⟩ :=
    address_memory segSet seg reports.modRM accesses.form
  have opBytes : _ = e.operandSize (m (e.tail regs.ip)) :=
    (DecodeCache.carries_address m regs (.afterLookup m regs e segSet seg)).opBytes
  have apart := e.operandsApart (m (e.tail regs.ip))
  rw [← entry] at reports apart
  rw [DecodeCache.reported_modRM reports apart memory (fun is => accesses.notInvlpg (invlpg.mp is)),
    entry, opBytes, ea] at found
  exact found out

/-- The entry of invlpg has the ModRM operand for its source and nothing for its destination. -/
theorem groupEntry_invlpg : ∀ modrm : Byte, regField modrm = 7 →
    (groupEntry (twobyteTable 0x01) modrm).SrcModRM ∨
        (groupEntry (twobyteTable 0x01) modrm).DstModRM →
      groupEntry (twobyteTable 0x01) modrm &&& Op.srcMask = Op.srcMem ∧
        ¬(groupEntry (twobyteTable 0x01) modrm).DstModRM := by decide

/-- A register number below eight has no REX bit. -/
theorem regField_of_extendReg {bit : Bool} {modrm : Byte} {k : Nat} (small : k < 8)
    (number : extendReg bit (regField modrm) = k) : regField modrm = k := by
  unfold extendReg at number
  split at number
  · omega
  · omega

/-- An instruction with a ModRM byte of a memory form that is no bit operation and no push has its
ModRM operand reported, or nothing at all. -/
theorem yyGetMemoryAccess_modRM_cases {m : Memory} {ip : Word} {e : Encoding}
    (held : e.HeldAt m ip) (modRM : (e.entry (m (e.tail ip))).has Op.modRM = true)
    (form : IsMemoryForm (m (e.tail ip)))
    (notBitOp : (e.entry (m (e.tail ip))).has Op.bitOp = false)
    (notPush : (e.entry (m (e.tail ip))).has Op.push = false) :
    e.AccessesModRM m ip ∨ ∀ regs : PtRegs, regs.ip = ip → ∀ out,
      yyGetMemoryAccess m regs out = some { out with dataLength := fun _ => 0 } := by
  by_cases accesses : e.AccessesModRM m ip
  · exact .inl accesses
  · refine .inr fun regs here out => ?_
    subst here
    -- An entry that names the ModRM operand fails to report it only for invlpg.
    have invlpg (operand : (e.entry (m (e.tail regs.ip))).SrcModRM ∨
        (e.entry (m (e.tail regs.ip))).DstModRM)
        (explicit : (e.entry (m (e.tail regs.ip))).Explicit) :
        e.twobyte = true ∧ e.opcode = 0x01 ∧
          extendReg (e.rex.getLsbD 2) (regField (m (e.tail regs.ip))) = 7 := by
      by_contra other
      exact accesses ⟨held, ⟨modRM, operand, notBitOp, notPush, explicit⟩, form, other⟩
    have named (exempt : e.twobyte = true ∧ e.opcode = 0x01 ∧
        extendReg (e.rex.getLsbD 2) (regField (m (e.tail regs.ip))) = 7)
        (source : (e.entry (m (e.tail regs.ip))).SrcModRM ∨
          (e.entry (m (e.tail regs.ip))).DstModRM) :
        e.entry (m (e.tail regs.ip)) &&& Op.srcMask = Op.srcMem ∧
          ¬(e.entry (m (e.tail regs.ip))).DstModRM := by
      have entry : e.entry (m (e.tail regs.ip)) =
          groupEntry (twobyteTable 0x01) (m (e.tail regs.ip)) := by
        rw [e.entry_of_escape _ exempt.1, exempt.2.1]
      rw [entry] at source ⊢
      exact groupEntry_invlpg _ (regField_of_extendReg (by decide) exempt.2.2) source
    obtain ⟨segSet, seg, found⟩ := yyGetMemoryAccess_reported held (e.isOpcode_of_modRM modRM)
    obtain ⟨entry, -, exempt, -⟩ := address_memory segSet seg modRM form
    generalize (DecodeCache.afterLookup m regs e segSet seg).address m regs = c
      at found entry exempt
    have nothing : c.reported = none := by
      apply DecodeCache.reported_none
      · rw [entry]
        exact modRM
      · rw [entry]
        exact notPush
      · rw [entry]
        exact e.operandsApart (m (e.tail regs.ip))
      · intro explicit source
        rw [entry] at explicit source ⊢
        have is := invlpg (.inl source) explicit
        exact .inr ⟨(named is (.inl source)).1, exempt.mpr is⟩
      · intro explicit destination
        rw [entry] at explicit destination
        have is := invlpg (.inr destination) explicit
        exact absurd destination (named is (.inr destination)).2
    rw [found out, nothing]
    rfl

/-! ## Two runs -/

/-- The difference of two addresses of one size, cut to that size, is that of the numbers they were
cut from. -/
theorem truncateAddress_sub (addr32 : Bool) (x y : Word) :
    truncateAddress addr32 (truncateAddress addr32 x - truncateAddress addr32 y)
      = truncateAddress addr32 (x - y) := by
  cases addr32 with
  | false => rfl
  | true =>
    have hx := x.isLt
    have hy := y.isLt
    apply BitVec.eq_of_toNat_eq
    simp only [truncateAddress, if_true, BitVec.toNat_setWidth, BitVec.toNat_sub]
    omega

/-- A scaled difference is the difference of the scaled numbers. -/
theorem sub_shiftLeft (x y : Word) (n : Nat) : (x - y) <<< n = x <<< n - y <<< n := by
  simp only [BitVec.shiftLeft_eq_mul_twoPow]
  exact sub_mul x y _

namespace AddressForm

variable (f : AddressForm) (regs regs' : PtRegs)

/-- The index register before it is scaled. -/
def indexReg : Word :=
  match f.index with
  | some (r, _) => regs.gpr r
  | none => 0

/-- The scale. -/
def scale : Nat :=
  match f.index with
  | some (_, scale) => scale
  | none => 0

/-- The index of an address is its scaled index register. -/
theorem indexValue_eq : f.indexValue regs = f.indexReg regs <<< f.scale := by
  unfold indexValue indexReg scale
  cases f.index with
  | none => rfl
  | some _ => rfl

/-- The registers that the form names have the same values. -/
def NamedAgree : Prop :=
  (∀ r, f.base = some r → regs'.gpr r = regs.gpr r) ∧
    ∀ r scale, f.index = some (r, scale) → regs'.gpr r = regs.gpr r

/-- Register files that agree on the named registers have the same base and scaled index. -/
theorem registers_congr {f : AddressForm} {regs regs' : PtRegs} (agree : f.NamedAgree regs regs') :
    f.registers regs' = f.registers regs := by
  have base : f.baseValue regs' = f.baseValue regs := by
    unfold baseValue
    cases named : f.base with
    | none => rfl
    | some r => exact agree.1 r named
  have index : f.indexValue regs' = f.indexValue regs := by
    unfold indexValue
    cases named : f.index with
    | none => rfl
    | some scaled =>
      obtain ⟨r, scale⟩ := scaled
      exact congrArg (fun value : Word => value <<< scale) (agree.2 r scale named)
  rw [registers, registers, base, index]

/-- Two register files differ in an address by their bases and their scaled indices. -/
theorem registers_sub : f.registers regs' - f.registers regs =
    (f.baseValue regs' - f.baseValue regs) + (f.indexReg regs' - f.indexReg regs) <<< f.scale := by
  rw [registers, registers, indexValue_eq, indexValue_eq, sub_shiftLeft]
  abel

end AddressForm

/-- On one instruction with two register files, the decoder reports the same length and direction,
and addresses that differ by the base and by the scaled index alone, in the address size in effect;
registers that are neither have no influence. -/
theorem two_run_law (m : Memory) (regs regs' : PtRegs) (out : Access) (e : Encoding)
    (held : e.HeldAt m regs.ip) (modRM : (e.entry (m (e.tail regs.ip))).has Op.modRM = true)
    (form : IsMemoryForm (m (e.tail regs.ip)))
    (notBitOp : (e.entry (m (e.tail regs.ip))).has Op.bitOp = false)
    (notPush : (e.entry (m (e.tail regs.ip))).has Op.push = false) (sameIp : regs'.ip = regs.ip) :
    let f := e.addressForm m regs.ip
    ∃ acc acc', yyGetMemoryAccess m regs out = some acc ∧
      yyGetMemoryAccess m regs' out = some acc' ∧
      acc'.dataLength 0 = acc.dataLength 0 ∧ acc'.isWrite 0 = acc.isWrite 0 ∧
      (acc.dataLength 0 ≠ 0 →
        truncateAddress e.addr32 (acc'.dataAddr 0 - acc.dataAddr 0) = truncateAddress e.addr32
          ((f.baseValue regs' - f.baseValue regs) +
            (f.indexReg regs' - f.indexReg regs) <<< f.scale)) ∧
      (f.NamedAgree regs regs' → acc' = acc) := by
  rcases yyGetMemoryAccess_modRM_cases held modRM form notBitOp notPush with accesses | nothing
  · have first := yyGetMemoryAccess_reports out accesses
    have moved : e.AccessesModRM m regs'.ip := sameIp ▸ accesses
    have second := yyGetMemoryAccess_reports out moved
    rw [sameIp] at second
    refine ⟨_, _, first, second, ?_, ?_, fun _ => ?_, fun agree => ?_⟩
    · rw [Access.fill_dataLength, Access.fill_dataLength, Flags.examined_bytes,
        Flags.examined_bytes]
    · rw [Access.fill_isWrite, Access.fill_isWrite, Flags.examined_write, Flags.examined_write]
    · rw [Access.fill_dataAddr, Access.fill_dataAddr, Flags.examined_addr, Flags.examined_addr,
        truncateAddress_sub, add_sub_add_right_eq_sub, AddressForm.registers_sub]
    · rw [AddressForm.registers_congr agree]
  · exact ⟨_, _, nothing regs rfl out, nothing regs' sameIp out, rfl, rfl,
      fun nonzero => absurd rfl nonzero, fun _ => rfl⟩

/-- The law for the store of `scaledStoreAt`, when its base `r13` and its index `r10` change. -/
theorem two_run_law_scaled :
    let f := scaledStore.addressForm scaledStoreAt 0x1000
    let regs' := { scaledStoreRegs with r13 := 8, r10 := 3 }
    ∃ acc acc', yyGetMemoryAccess scaledStoreAt scaledStoreRegs ⟨0, 0, fun _ => false⟩ = some acc ∧
      yyGetMemoryAccess scaledStoreAt regs' ⟨0, 0, fun _ => false⟩ = some acc' ∧
      acc'.dataLength 0 = acc.dataLength 0 ∧ acc'.isWrite 0 = acc.isWrite 0 ∧
      (acc.dataLength 0 ≠ 0 →
        truncateAddress true (acc'.dataAddr 0 - acc.dataAddr 0) = truncateAddress true
          ((f.baseValue regs' - f.baseValue scaledStoreRegs) +
            (f.indexReg regs' - f.indexReg scaledStoreRegs) <<< f.scale)) ∧
      (f.NamedAgree scaledStoreRegs regs' → acc' = acc) :=
  two_run_law scaledStoreAt scaledStoreRegs _ ⟨0, 0, fun _ => false⟩ scaledStore (by decide)
    (by decide) (by decide) (by decide) (by decide) rfl

end Drddr
