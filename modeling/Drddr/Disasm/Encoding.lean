import Drddr.Disasm.Decode

/-!
# Instruction encodings

What a byte string means to the processor, apart from the decoder: prefixes and which of
them count, and the registers and the displacement that a ModRM byte names.
-/

namespace Drddr

open Machine

/-- A legacy prefix. -/
def isLegacyPrefix (b : Byte) : Bool :=
  decide (b ∈ [0x66, 0x67, 0x26, 0x2e, 0x36, 0x3e, 0x64, 0x65, 0xf0, 0xf2, 0xf3])

/-- A REX prefix. -/
def isRex (b : Byte) : Bool := decide (b >>> 4 = 4)

/-- A prefix of either kind. -/
def isPrefix (b : Byte) : Bool := isLegacyPrefix b || isRex b

/-- An instruction up to its opcode. -/
structure Encoding where
  prefixes : List Byte
  twobyte : Bool
  opcode : Byte

namespace Encoding

variable (e : Encoding)

/-- The opcode with its escape byte. -/
def opcodeBytes : List Byte := if e.twobyte then [0x0f, e.opcode] else [e.opcode]

/-- The memory holds the instruction at an address. -/
def HeldAt (m : Memory) (ip : Word) : Prop :=
  (∀ p ∈ e.prefixes, isPrefix p = true) ∧ m.HoldsAt ip (e.prefixes ++ e.opcodeBytes)

instance (m : Memory) (ip : Word) : Decidable (e.HeldAt m ip) :=
  inferInstanceAs (Decidable (_ ∧ _))

/-- The address of the byte after the opcode. -/
def tail (ip : Word) : Word :=
  ip + BitVec.ofNat 64 e.prefixes.length + BitVec.ofNat 64 e.opcodeBytes.length

/-- The table entry of the opcode. -/
def opcodeEntry : Flags := if e.twobyte then twobyteTable e.opcode else opcodeTable e.opcode

/-- The table entry of the instruction with a given ModRM byte. -/
def entry (modrm : Byte) : Flags := groupEntry e.opcodeEntry modrm

/-- The REX prefix in effect: the last prefix, if it is one. -/
def rex : Byte := (e.prefixes.getLast?.filter isRex).getD 0

/-- The operand-size prefix is present. -/
def opSize : Bool := decide (0x66 ∈ e.prefixes)

/-- The address-size prefix is present. -/
def addr32 : Bool := decide (0x67 ∈ e.prefixes)

end Encoding

/-! ## ModRM addressing -/

/-- Bits 7 and 6 of a ModRM byte. -/
def modField (modrm : Byte) : Nat := modrm.toNat / 64

/-- Bits 5 to 3 of a ModRM byte. -/
def regField (modrm : Byte) : Nat := modrm.toNat / 8 % 8

/-- Bits 2 to 0 of a ModRM byte. -/
def rmField (modrm : Byte) : Nat := modrm.toNat % 8

/-- A register number with its REX bit. -/
def extendReg (bit : Bool) (low : Nat) : Nat := (if bit then 8 else 0) + low

/-- A ModRM byte whose operand is in memory, relative to a register. -/
def IsMemoryForm (modrm : Byte) : Prop :=
  modField modrm ≠ 3 ∧ ¬(modField modrm = 0 ∧ rmField modrm = 5)

instance (modrm : Byte) : Decidable (IsMemoryForm modrm) := inferInstanceAs (Decidable (_ ∧ _))

/-- The components of an address. -/
structure AddressForm where
  base : Option Nat
  /-- Register and scale. -/
  index : Option (Nat × Nat)
  dispAt : Word
  /-- Bytes of displacement: none, one or four. -/
  dispSize : Nat

/-- Bytes of displacement that go with a mode. -/
def dispBytes (mod : Nat) : Nat := if mod = 1 then 1 else if mod = 2 then 4 else 0

/-- The address that a ModRM byte of a memory form names, with the bytes after it. -/
def addressForm (m : Memory) (rex : Byte) (a : Word) : AddressForm :=
  let mod := modField (m a)
  if rmField (m a) = 4 then
    let sib := m (a + 1#64)
    let index := extendReg (rex.getLsbD 1) (regField sib)
    let absolute := rmField sib = 5 ∧ mod = 0
    { base := if absolute then none else some (extendReg (rex.getLsbD 0) (rmField sib))
      index := if index = 4 then none else some (index, modField sib)
      dispAt := a + 2#64
      dispSize := if absolute then 4 else dispBytes mod }
  else
    { base := some (extendReg (rex.getLsbD 0) (rmField (m a)))
      index := none
      dispAt := a + 1#64
      dispSize := dispBytes mod }

namespace AddressForm

variable (f : AddressForm) (m : Memory) (regs : PtRegs)

/-- The displacement as an unsigned number. -/
def dispRead : Word := m.read f.dispAt f.dispSize

/-- The address of the byte after the displacement. -/
def next : Word := f.dispAt + BitVec.ofNat 64 f.dispSize

/-- The displacement, sign-extended from its width. -/
def disp : Word :=
  if f.dispSize = 1 then ((m.read f.dispAt 1).setWidth 8).signExtend 64
  else if f.dispSize = 4 then ((m.read f.dispAt 4).setWidth 32).signExtend 64
  else 0

/-- The sign bit of the displacement is set. -/
def dispNegative : Bool := (m.read f.dispAt f.dispSize).getLsbD (8 * f.dispSize - 1)

/-- The base register. -/
def baseValue : Word :=
  match f.base with
  | some r => regs.gpr r
  | none => 0

/-- The scaled index register. -/
def indexValue : Word :=
  match f.index with
  | some (r, scale) => regs.gpr r <<< scale
  | none => 0

/-- Base and scaled index. -/
def registers : Word := f.baseValue regs + f.indexValue regs

end AddressForm

/-- An address of the address size in effect. -/
def truncateAddress (addr32 : Bool) (a : Word) : Word :=
  if addr32 then (a.setWidth 32).setWidth 64 else a

/-- The effective address. -/
def AddressForm.effectiveAddress (f : AddressForm) (m : Memory) (regs : PtRegs) (addr32 : Bool) :
    Word :=
  truncateAddress addr32 (f.registers regs + f.disp m)

/-! ## Prefixes -/

/-- REX prefixes are tested for by their range. -/
theorem isRex_iff : ∀ b : Byte, isRex b = true ↔ 0x40 ≤ b ∧ b ≤ 0x4f := by decide

/-- What REX prefix is in effect after a list of prefixes, starting with a given one. -/
def rexAfter (rex : Byte) (prefixes : List Byte) : Byte :=
  prefixes.foldl (fun _ p => if isRex p then p else 0) rex

/-- Only the last prefix decides which REX is in effect. -/
theorem rexAfter_eq_rex (e : Encoding) : rexAfter 0 e.prefixes = e.rex := by
  unfold rexAfter Encoding.rex
  rcases List.eq_nil_or_concat e.prefixes with nil | ⟨before, last, eq⟩
  · rw [nil]
    rfl
  · rw [eq, List.concat_eq_append, List.foldl_append, List.getLast?_append]
    cases rex : isRex last <;> simp [rex, Option.filter]

/-- No byte is a prefix of both kinds. -/
theorem not_isLegacyPrefix_of_isRex :
    ∀ b : Byte, isRex b = true → isLegacyPrefix b = false := by decide

/-- A prefix sets the sizes, replaces the REX prefix and perhaps the segment. -/
theorem applyPrefix_of_prefix (c : DecodeCache) {b : Byte} (isOne : isPrefix b = true) :
    ∃ segSet seg, c.applyPrefix b = some { c with
      opBytes := if b = 0x66 then 2 else c.opBytes
      adBytes := if b = 0x67 then 4 else c.adBytes
      rexPrefix := if isRex b then b else 0
      hasSegOverride := segSet
      segOverride := seg } := by
  by_cases rex : isRex b = true
  · have range := (isRex_iff b).mp rex
    have other := not_isLegacyPrefix_of_isRex b rex
    simp only [isLegacyPrefix, List.mem_cons, decide_eq_false_iff_not, List.not_mem_nil, or_false,
      not_or] at other
    refine ⟨c.hasSegOverride, c.segOverride, ?_⟩
    simp only [DecodeCache.applyPrefix, other, range, rex, or_self, and_self, if_true, if_false]
  · have one : isLegacyPrefix b = true := by simpa [isPrefix, rex] using isOne
    simp only [isLegacyPrefix, List.mem_cons, decide_eq_true_eq, List.not_mem_nil, or_false] at one
    rcases one with rfl | rfl | rfl | rfl | rfl | rfl | rfl | rfl | rfl | rfl | rfl <;>
      exact ⟨_, _, rfl⟩

/-- A byte that is no prefix ends the prefixes. -/
theorem applyPrefix_of_not_prefix (c : DecodeCache) {b : Byte} (isNone : isPrefix b = false) :
    c.applyPrefix b = none := by
  rw [isPrefix, Bool.or_eq_false_iff] at isNone
  have noRex : ¬(0x40 ≤ b ∧ b ≤ 0x4f) := by
    rw [← isRex_iff, isNone.2]
    exact Bool.false_ne_true
  have noLegacy := isNone.1
  simp only [isLegacyPrefix, List.mem_cons, decide_eq_false_iff_not, List.not_mem_nil, or_false,
    not_or] at noLegacy
  simp only [DecodeCache.applyPrefix, noLegacy, noRex, or_self, if_false]

end Drddr
