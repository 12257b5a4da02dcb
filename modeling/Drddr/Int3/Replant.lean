import Drddr.Disasm.Prefixes
import Drddr.Disasm.RipRelative
import Drddr.Int3.Session

/-!
# Decoding a trapped instruction

`int3_real_work` decodes the instruction at which its thread trapped without the lock. Meanwhile
other threads plant breakpoints and take them off, at other addresses of the list and at this one.
-/

namespace Drddr

open Machine

/-- The bytes of an instruction that decide about its access, the prefixes and the opcode
included. -/
def Encoding.length (e : Encoding) (m : Memory) (ip : Word) : Nat :=
  e.prefixes.length + e.opcodeBytes.length +
    e.operandLength (m (e.tail ip)) (m (e.tail ip + 1#64))

/-! ## One place in two memories -/

/-- A byte string that is held by one memory is held by another one with the same bytes. -/
theorem holdsAt_congr {m m' : Memory} {a : Word} {bytes : List Byte}
    (same : m.SameBytes m' a a bytes.length) (held : m.HoldsAt a bytes) : m'.HoldsAt a bytes := by
  induction bytes generalizing a with
  | nil => exact trivial
  | cons b bytes ih =>
    have first : m a = m' a := by
      simpa using same 0 (Nat.succ_pos bytes.length)
    have rest : m.SameBytes m' (a + 1#64) (a + 1#64) bytes.length :=
      same.part (i := 1) (by rw [List.length_cons]; omega)
    exact ⟨first ▸ held.1, ih rest held.2⟩

namespace Encoding

variable {e : Encoding} {m m' : Memory} {regs : PtRegs}
  (same : m.SameBytes m' regs.ip regs.ip (e.length m regs.ip))

include same

/-- An instruction stands in every memory that has its bytes. -/
theorem heldAt_congr (held : e.HeldAt m regs.ip) : e.HeldAt m' regs.ip := by
  refine ⟨held.1, holdsAt_congr (fun k below => same k ?_) held.2⟩
  rw [List.length_append] at below
  rw [length]
  omega

/-- The bytes after the opcode are the same. -/
theorem sameOperand : m.SameBytes m' (e.tail regs.ip) (e.tail regs.ip)
    (e.operandLength (m (e.tail regs.ip)) (m (e.tail regs.ip + 1#64))) := by
  have tail : e.tail regs.ip =
      regs.ip + BitVec.ofNat 64 (e.prefixes.length + e.opcodeBytes.length) := by
    rw [add_ofNat_add]
    rfl
  have part := @Memory.SameBytes.part m m' regs.ip regs.ip _ same
    (e.prefixes.length + e.opcodeBytes.length)
    (e.operandLength (m (e.tail regs.ip)) (m (e.tail regs.ip + 1#64))) le_rfl
  rw [← tail] at part
  exact part

/-- An operand relative to the instruction pointer is the same. -/
theorem alike_rip (modRM : (e.entry (m (e.tail regs.ip))).has Op.modRM = true)
    (form : IsRipForm (m (e.tail regs.ip))) (segSet segSet' : Bool) (seg seg' : Byte) :
    DecodeCache.Alike ((DecodeCache.afterLookup m regs e segSet seg).address m regs)
      ((DecodeCache.afterLookup m' regs e segSet' seg').address m' regs) := by
  have operand := sameOperand same
  have size : e.operandLength (m (e.tail regs.ip)) (m (e.tail regs.ip + 1#64)) = 5 := by
    have notReg : modField (m (e.tail regs.ip)) ≠ 3 := by
      rw [form.1]
      decide
    have noSib : rmField (m (e.tail regs.ip)) ≠ 4 := by
      rw [form.2]
      decide
    rw [operandLength, if_pos modRM, modrmLength, if_neg notReg, if_neg noSib]
    exact if_pos form
  rw [size] at operand
  have modrm : m (e.tail regs.ip) = m' (e.tail regs.ip) := by
    simpa using operand 0 (by decide)
  have disp : m.read (e.tail regs.ip + 1#64) 4 = m'.read (e.tail regs.ip + 1#64) 4 :=
    (operand.part (i := 1) (k := 4) le_rfl).read
  have modRM' : (e.entry (m' (e.tail regs.ip))).has Op.modRM = true := modrm ▸ modRM
  rw [DecodeCache.address_rip modRM form, DecodeCache.address_rip modRM' (modrm ▸ form)]
  constructor
  · rfl
  · rfl
  · simp only [DecodeCache.stackBytes, DecodeCache.afterLookup, modrm]
    rfl
  · rfl
  · rfl
  · simp only [DecodeCache.afterModRMByte, DecodeCache.afterLookup, modrm]
  · rfl
  · simp only [DecodeCache.afterModRMByte, DecodeCache.afterLookup, modrm]
  · simp only [DecodeCache.afterModRMByte, DecodeCache.afterLookup, modrm]
  · simp only [disp]

/-- The decoder reports the same in two memories that have the bytes of the instruction. -/
theorem yyGetMemoryAccess_congr (held : e.HeldAt m regs.ip) (isOpcode : e.IsOpcode)
    (out : Access) : yyGetMemoryAccess m regs out = yyGetMemoryAccess m' regs out := by
  have held' := heldAt_congr same held
  by_cases rip : (e.entry (m (e.tail regs.ip))).has Op.modRM = true ∧
      IsRipForm (m (e.tail regs.ip))
  · obtain ⟨segSet, seg, found⟩ := yyGetMemoryAccess_reported held isOpcode
    obtain ⟨segSet', seg', found'⟩ := yyGetMemoryAccess_reported held' isOpcode
    rw [found, found', (alike_rip same rip.1 rip.2 segSet segSet' seg seg').reported]
  · have tails : SameTail m m' regs regs e e :=
      ⟨⟨rfl, rfl, rfl, rfl, rfl⟩, sameOperand same, rfl, fun modRM form => rip ⟨modRM, form⟩⟩
    exact tails.yyGetMemoryAccess_eq held held' isOpcode out

end Encoding

/-! ## A breakpoint in the place of the instruction -/

/-- A breakpoint as an instruction. -/
def breakpoint : Encoding := { prefixes := [], twobyte := false, opcode := INT3 }

/-- The operand of a breakpoint instruction is implicit. -/
theorem entry_breakpoint (modrm : Byte) : breakpoint.entry modrm = Op.implicitOps :=
  groupEntry_of_not_group modrm (by decide)

/-- Where the decoder finds a breakpoint, it reports nothing. -/
theorem yyGetMemoryAccess_breakpoint {m : Memory} {regs : PtRegs} (planted : m regs.ip = INT3)
    (out : Access) : yyGetMemoryAccess m regs out =
      some { out with dataLength := fun _ => 0 } := by
  have held : breakpoint.HeldAt m regs.ip := by
    refine ⟨fun p member => by contradiction, planted, trivial⟩
  have isOpcode : breakpoint.IsOpcode := fun _ => by decide
  obtain ⟨segSet, seg, found⟩ := yyGetMemoryAccess_reported held isOpcode
  have carried := DecodeCache.carries_address m regs (.afterLookup m regs breakpoint segSet seg)
  have entry : ((DecodeCache.afterLookup m regs breakpoint segSet seg).address m regs).d =
      Op.implicitOps := carried.d.trans (entry_breakpoint (m (breakpoint.tail regs.ip)))
  have nothing : ((DecodeCache.afterLookup m regs breakpoint segSet seg).address m regs).reported
      = none := by
    rw [DecodeCache.reported, entry, if_neg (by decide)]
  rw [found, nothing]
  rfl

/-! ## A session -/

/-- In every state of a session, whatever has been planted and taken off since: an instruction in
whose other bytes there is no address of the list is decoded as it was before the session, unless a
breakpoint has been planted in its place again; then no access is reported. -/
theorem replanted_decodes (s₀ : Bp) (addrList : Nat → Word) (n : Nat)
    (distinct : ∀ i j, i < n → j < n → addrList i = addrList j → i = j) (calls : List LockedCall)
    (t : Bp) (reached : run lockedStep (s₀.bpInit addrList n) calls = some t) (regs : PtRegs)
    (out : Access) (e : Encoding) (held : e.HeldAt s₀.text regs.ip) (isOpcode : e.IsOpcode)
    (apart : ∀ i < n, ∀ k < e.length s₀.text regs.ip,
      addrList i = regs.ip + BitVec.ofNat 64 k → addrList i = regs.ip) :
    (regs.ip ∉ t.planted → getDataInfo t.text regs out = getDataInfo s₀.text regs out) ∧
      (regs.ip ∈ t.planted → ∃ acc, getDataInfo t.text regs out = some acc ∧
        acc.dataLength 0 = 0) := by
  obtain ⟨overlays, list, count⟩ :=
    run_lockedStep (Bp.overlays_bpInit s₀ addrList n distinct) reached
  constructor
  · intro absent
    have same : s₀.text.SameBytes t.text regs.ip regs.ip (e.length s₀.text regs.ip) := by
      intro k below
      have free : regs.ip + BitVec.ofNat 64 k ∉ t.planted := by
        rintro ⟨i, armed, place⟩
        have inside : i < n := by
          have bound : (i : Int) < t.bpCount := armed.1
          have number : t.bpCount = n := by rw [count, Bp.bpInit_eq]
          omega
        have listed : t.bpAddr i = addrList i := by
          rw [list, Bp.bpInit_eq]
          exact if_pos inside
        have own := apart i inside k below (listed ▸ place)
        exact absent ⟨i, armed, listed.trans own⟩
      rw [overlays.text, overlay_of_notMem free]
    rw [getDataInfo, getDataInfo, Encoding.yyGetMemoryAccess_congr same held isOpcode]
  · intro present
    have planted : t.text regs.ip = INT3 := by rw [overlays.text, overlay_of_mem present]
    rw [getDataInfo, yyGetMemoryAccess_breakpoint planted]
    exact ⟨_, rfl, by simp⟩

/-- `mov %rax, (%rbx)`, and the instruction after it. -/
def storeThenNext : Nat → Word := fun i => if i = 0 then 0x1000 else 0x1003

/-- Two neighbours have a breakpoint, the store loses its own, and its thread decodes it. -/
theorem replanted_decodes_store :
    ∃ t, run lockedStep ((Bp.loaded (.ofBytes 0x1000 [0x48, 0x89, 0x03, 0x90])).bpInit
        storeThenNext 2) [.add 0 [], .add 1 [], .remove 0x1000] = some t ∧
      t.text 0x1003 = INT3 ∧
      getDataInfo t.text { (default : PtRegs) with ip := 0x1000 } ⟨0, 0, fun _ => false⟩ =
        getDataInfo (.ofBytes 0x1000 [0x48, 0x89, 0x03, 0x90])
          { (default : PtRegs) with ip := 0x1000 } ⟨0, 0, fun _ => false⟩ := by
  refine ⟨_, rfl, rfl, ?_⟩
  refine (replanted_decodes (.loaded (.ofBytes 0x1000 [0x48, 0x89, 0x03, 0x90])) storeThenNext 2
    ?_ [.add 0 [], .add 1 [], .remove 0x1000] _ rfl { (default : PtRegs) with ip := 0x1000 }
    ⟨0, 0, fun _ => false⟩ ⟨[0x48], false, 0x89⟩ (by decide) (fun _ => by decide) ?_).1 ?_
  · intro i j below below' same
    obtain rfl | rfl : i = 0 ∨ i = 1 := by omega
    · obtain rfl | rfl : j = 0 ∨ j = 1 := by omega
      · rfl
      · exact absurd same (by decide)
    · obtain rfl | rfl : j = 0 ∨ j = 1 := by omega
      · exact absurd same (by decide)
      · rfl
  · intro i below
    unfold storeThenNext
    split
    · exact fun _ _ _ => rfl
    · decide
  · rintro ⟨i, ⟨below, used⟩, place⟩
    have small : i < 2 := Int.ofNat_lt.mp below
    obtain rfl | rfl : i = 0 ∨ i = 1 := by omega
    · exact absurd used (by decide)
    · exact absurd place (by decide)

end Drddr
