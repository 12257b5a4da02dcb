import Drddr.Disasm.Encoding

/-!
# Prefixes and opcode

What the decoder holds when it has passed the prefixes and the opcode of an instruction.
-/

namespace Drddr

open Machine

/-! ## Prefixes -/

namespace DecodeCache

/-- A size that a prefix sets, after one more prefix. -/
theorem prefixSize_cons (q p : Byte) (prefixes : List Byte) (set unset : Nat) :
    (if q ∈ prefixes then set else if p = q then set else unset)
      = if q ∈ p :: prefixes then set else unset := by
  simp only [List.mem_cons, eq_comm (b := p)]
  by_cases first : p = q <;> by_cases later : q ∈ prefixes <;> simp [first, later]

/-- The loop over the prefixes ends after the byte that follows them. -/
theorem legacyPrefixes_spec (m : Memory) (prefixes : List Byte) (c : DecodeCache) (rounds : Nat)
    (enough : prefixes.length < rounds) (all : ∀ p ∈ prefixes, isPrefix p = true)
    (held : m.HoldsAt c.eip prefixes)
    (last : isPrefix (m (c.eip + BitVec.ofNat 64 prefixes.length)) = false) :
    ∃ segSet seg, legacyPrefixes m rounds c = some { c with
      b := m (c.eip + BitVec.ofNat 64 prefixes.length)
      eip := c.eip + BitVec.ofNat 64 prefixes.length + 1#64
      opBytes := if 0x66 ∈ prefixes then 2 else c.opBytes
      adBytes := if 0x67 ∈ prefixes then 4 else c.adBytes
      rexPrefix := rexAfter c.rexPrefix prefixes
      hasSegOverride := segSet
      segOverride := seg } := by
  induction prefixes generalizing c rounds with
  | nil =>
    cases rounds with
    | zero => exact absurd enough (Nat.not_lt_zero _)
    | succ rounds =>
      simp only [List.length_nil, BitVec.add_zero] at last
      refine ⟨c.hasSegOverride, c.segOverride, ?_⟩
      simp [legacyPrefixes, fetchByte, applyPrefix_of_not_prefix _ last, rexAfter]
  | cons p prefixes ih =>
    cases rounds with
    | zero => exact absurd enough (Nat.not_lt_zero _)
    | succ rounds =>
      have here : m c.eip = p := held.1
      have isOne : isPrefix p = true := all p List.mem_cons_self
      have rest : ∀ q ∈ prefixes, isPrefix q = true :=
        fun q mem => all q (List.mem_cons_of_mem _ mem)
      have next : c.eip + BitVec.ofNat 64 (p :: prefixes).length
          = c.eip + 1#64 + BitVec.ofNat 64 prefixes.length := by
        rw [List.length_cons, Nat.add_comm, add_ofNat_add]
      obtain ⟨segSet, seg, applied⟩ :=
        applyPrefix_of_prefix { c with b := p, eip := c.eip + 1#64 } isOne
      let stepped : DecodeCache := { c with
        b := p
        eip := c.eip + 1#64
        opBytes := if p = 0x66 then 2 else c.opBytes
        adBytes := if p = 0x67 then 4 else c.adBytes
        rexPrefix := if isRex p then p else 0
        hasSegOverride := segSet
        segOverride := seg }
      have step : legacyPrefixes m (rounds + 1) c = legacyPrefixes m rounds stepped := by
        simp only [legacyPrefixes, fetchByte, here, applied]
        rfl
      have fewer : prefixes.length < rounds := Nat.lt_of_succ_lt_succ enough
      rw [next] at last ⊢
      obtain ⟨segSet', seg', final⟩ := ih stepped rounds fewer rest held.2 last
      refine ⟨segSet', seg', ?_⟩
      rw [step, final, ← prefixSize_cons 0x66 p, ← prefixSize_cons 0x67 p]
      rfl

end DecodeCache

/-- A string of prefixes that ends does not fill the address space. -/
theorem prefixes_bounded {m : Memory} {a : Word} {prefixes : List Byte}
    (all : ∀ p ∈ prefixes, isPrefix p = true) (held : m.HoldsAt a prefixes)
    (last : isPrefix (m (a + BitVec.ofNat 64 prefixes.length)) = false) :
    prefixes.length < 2 ^ 64 := by
  by_contra long
  have inside : prefixes.length % 2 ^ 64 < prefixes.length := by omega
  have wrapped : BitVec.ofNat 64 (prefixes.length % 2 ^ 64) = BitVec.ofNat 64 prefixes.length := by
    apply BitVec.eq_of_toNat_eq
    simp
  have byte := held.getElem inside
  rw [wrapped] at byte
  have one : isPrefix (m (a + BitVec.ofNat 64 prefixes.length)) = true := by
    rw [byte]
    exact all _ (List.getElem_mem inside)
  rw [last] at one
  exact absurd one Bool.false_ne_true

/-! ## Opcode -/

/-- A group, a ModRM byte: neither is said of a prefix. -/
theorem opcodeTable_prefix : ∀ b : Byte, isPrefix b = true →
    (opcodeTable b).has Op.group = false ∧ (opcodeTable b).has Op.modRM = false := by
  decide

/-- The first table says nothing of the escape byte. -/
theorem opcodeTable_escape : opcodeTable 0x0f = 0 := by decide

/-- An entry outside the groups is its own. -/
theorem groupEntry_of_not_group {d : Flags} (modrm : Byte) (single : d.has Op.group = false) :
    groupEntry d modrm = d := by
  simp [groupEntry, single]

namespace Encoding

variable (e : Encoding)

/-- The opcode is none of the bytes that the decoder passes on its way to it. -/
def IsOpcode : Prop := e.twobyte = false → isPrefix e.opcode = false ∧ e.opcode ≠ 0x0f

/-- An opcode of one byte has its entry in the first table. -/
theorem entry_of_single (modrm : Byte) (single : e.twobyte = false) :
    e.entry modrm = groupEntry (opcodeTable e.opcode) modrm := by
  simp [entry, opcodeEntry, single]

/-- An opcode after the escape byte has its entry in the second table. -/
theorem entry_of_escape (modrm : Byte) (escape : e.twobyte = true) :
    e.entry modrm = groupEntry (twobyteTable e.opcode) modrm := by
  rw [entry, opcodeEntry, if_pos escape]

/-- The operand size, unless the instruction has one of its own. -/
def opBytes : Nat := if e.rex.getLsbD 3 then 8 else if e.opSize then 2 else 4

/-- The address size. -/
def adBytes : Nat := if e.addr32 then 4 else 8

/-- The address size is never two bytes. -/
theorem adBytes_ne_two : e.adBytes ≠ 2 := by
  unfold adBytes
  split <;> decide

/-- The address size is not eight bytes just when the prefix for 32-bit addresses is there. -/
theorem adBytes_ne_eight : decide (e.adBytes ≠ 8) = e.addr32 := by
  unfold adBytes
  cases e.addr32 <;> decide

/-- An instruction with a ModRM byte has an opcode. -/
theorem isOpcode_of_modRM {modrm : Byte} (modRM : (e.entry modrm).has Op.modRM = true) :
    e.IsOpcode := by
  intro single
  rw [e.entry_of_single modrm single] at modRM
  constructor
  · cases isPre : isPrefix e.opcode with
    | false => rfl
    | true =>
      have plain := opcodeTable_prefix e.opcode isPre
      rw [groupEntry_of_not_group modrm plain.1, plain.2] at modRM
      exact absurd modRM Bool.false_ne_true
  · intro escape
    rw [escape, opcodeTable_escape, groupEntry_of_not_group modrm (by decide)] at modRM
    exact absurd modRM (by decide)

/-- The byte after the prefixes is not a prefix. -/
theorem not_isPrefix_head {m : Memory} {a : Word} (held : e.HeldAt m a) (isOpcode : e.IsOpcode) :
    isPrefix (m (a + BitVec.ofNat 64 e.prefixes.length)) = false := by
  have bytes := ((m.holdsAt_append a _ _).mp held.2).2
  cases escape : e.twobyte with
  | true =>
    have head : m (a + BitVec.ofNat 64 e.prefixes.length) = 0x0f := by
      simp only [opcodeBytes, escape, if_true] at bytes
      exact bytes.1
    rw [head]
    decide
  | false =>
    have head : m (a + BitVec.ofNat 64 e.prefixes.length) = e.opcode := by
      simp only [opcodeBytes, escape, Bool.false_eq_true, if_false] at bytes
      exact bytes.1
    rw [head]
    exact (isOpcode escape).1

end Encoding

namespace DecodeCache

/-- The decoder's test for REX.W looks at one bit. -/
theorem rexW_iff : ∀ rex : Byte, (rex ≠ 0 ∧ rex &&& 8 ≠ 0) ↔ rex.getLsbD 3 = true := by
  decide

/-- What the cache holds when the opcode and its group have been looked up. -/
def afterLookup (m : Memory) (regs : PtRegs) (e : Encoding) (segSet : Bool) (seg : Byte) :
    DecodeCache :=
  let modrm := m (e.tail regs.ip)
  { init regs with
    twobyte := e.twobyte
    b := e.opcode
    opBytes := e.opBytes
    adBytes := e.adBytes
    rexPrefix := e.rex
    hasSegOverride := segSet
    segOverride := seg
    d := e.entry modrm
    eip := e.tail regs.ip
    modrm := if e.opcodeEntry.has Op.group then modrm else 0 }

/-- REX.W sets the operand size and nothing else. -/
theorem rexW_eq (c : DecodeCache) :
    c.rexW = { c with opBytes := if c.rexPrefix.getLsbD 3 then 8 else c.opBytes } := by
  simp only [rexW, rexW_iff]
  split <;> rfl

/-- An opcode of one byte is looked up in the first table. -/
theorem opcodeBytes_of_ne (m : Memory) {c : DecodeCache} (single : c.b ≠ 0x0f) :
    c.opcodeBytes m = { c with d := opcodeTable c.b } := by
  simp only [opcodeBytes, single, and_false, if_false]

/-- An opcode after the escape byte is looked up in the second table. -/
theorem opcodeBytes_of_escape (m : Memory) {c : DecodeCache} (escape : c.b = 0x0f) :
    c.opcodeBytes m = { c with
      twobyte := true
      b := m c.eip
      d := twobyteTable (m c.eip)
      eip := c.eip + 1#64 } := by
  simp only [opcodeBytes, fetchByte, escape, opcodeTable_escape, and_self, if_true]

/-- What the cache holds when the opcode bytes have been passed. -/
def afterOpcode (regs : PtRegs) (e : Encoding) (segSet : Bool) (seg : Byte) : DecodeCache :=
  { init regs with
    twobyte := e.twobyte
    b := e.opcode
    opBytes := e.opBytes
    adBytes := e.adBytes
    rexPrefix := e.rex
    hasSegOverride := segSet
    segOverride := seg
    d := e.opcodeEntry
    eip := e.tail regs.ip }

/-- The loop over the prefixes, REX.W and the opcode bytes lead to the opcode of the instruction. -/
theorem opcodeBytes_spec {m : Memory} {regs : PtRegs} {e : Encoding} (held : e.HeldAt m regs.ip)
    (isOpcode : e.IsOpcode) :
    ∃ segSet seg, (legacyPrefixes m (2 ^ 64) (.init regs)).map (fun c => c.rexW.opcodeBytes m)
      = some (afterOpcode regs e segSet seg) := by
  have parts := (m.holdsAt_append regs.ip _ _).mp held.2
  have last := e.not_isPrefix_head held isOpcode
  have bounded := prefixes_bounded held.1 parts.1 last
  obtain ⟨segSet, seg, ended⟩ :=
    legacyPrefixes_spec m e.prefixes (.init regs) (2 ^ 64) bounded held.1 parts.1 last
  refine ⟨segSet, seg, ?_⟩
  have rex : rexAfter (init regs).rexPrefix e.prefixes = e.rex := rexAfter_eq_rex e
  rw [ended, Option.map_some, rex, rexW_eq]
  congr 1
  have bytes := parts.2
  cases escape : e.twobyte with
  | true =>
    simp only [Encoding.opcodeBytes, escape, if_true] at bytes
    have after : e.tail regs.ip = regs.ip + BitVec.ofNat 64 e.prefixes.length + 1#64 + 1#64 := by
      simp [Encoding.tail, Encoding.opcodeBytes, escape, BitVec.add_assoc]
    have opcode : m (regs.ip + BitVec.ofNat 64 e.prefixes.length + 1#64) = e.opcode := bytes.2.1
    rw [opcodeBytes_of_escape m bytes.1]
    simp [afterOpcode, init, after, opcode, escape, Encoding.opcodeEntry, Encoding.opBytes,
      Encoding.adBytes, Encoding.opSize, Encoding.addr32]
  | false =>
    simp only [Encoding.opcodeBytes, escape, Bool.false_eq_true, if_false] at bytes
    have after : e.tail regs.ip = regs.ip + BitVec.ofNat 64 e.prefixes.length + 1#64 := by
      simp [Encoding.tail, Encoding.opcodeBytes, escape]
    have opcode : m (regs.ip + BitVec.ofNat 64 e.prefixes.length) = e.opcode := bytes.1
    have single : m (regs.ip + BitVec.ofNat 64 e.prefixes.length) ≠ 0x0f := by
      rw [opcode]
      exact (isOpcode escape).2
    rw [opcodeBytes_of_ne m single]
    simp [afterOpcode, init, after, opcode, escape, Encoding.opcodeEntry, Encoding.opBytes,
      Encoding.adBytes, Encoding.opSize, Encoding.addr32]

/-- The decoder finds the opcode of every instruction. -/
theorem lookup_spec {m : Memory} {regs : PtRegs} {e : Encoding} (held : e.HeldAt m regs.ip)
    (isOpcode : e.IsOpcode) :
    ∃ segSet seg, (legacyPrefixes m (2 ^ 64) (.init regs)).map (lookup m)
      = some (afterLookup m regs e segSet seg) := by
  obtain ⟨segSet, seg, found⟩ := opcodeBytes_spec held isOpcode
  refine ⟨segSet, seg, ?_⟩
  have both : lookup m = (fun c => groupDecode m c) ∘ fun c => c.rexW.opcodeBytes m := rfl
  rw [both, ← Option.map_map, found, Option.map_some]
  congr 1
  cases inGroup : e.opcodeEntry.has Op.group with
  | true =>
    simp only [groupDecode, afterOpcode, afterLookup, inGroup, Encoding.entry, if_true]
  | false =>
    have single := groupEntry_of_not_group (m (e.tail regs.ip)) inGroup
    simp only [groupDecode, afterOpcode, afterLookup, inGroup, Encoding.entry, single,
      Bool.false_eq_true, if_false]
    rfl

end DecodeCache

end Drddr
