import Drddr.Disasm.Effect
import Drddr.Int3.Replant
import Drddr.Int3.Trampoline
import Drddr.Wp.Races

/-!
# From a breakpoint to a watchpoint

What all of it is for: an instruction of the list is about to access memory, and while its thread is
held back every processor is to trap when it makes an access that races with that one. The trap is
diverted, the instruction is decoded with the registers that the frame has, and `wp_add` programs
the debug registers with the access that is found.
-/

namespace Drddr

open Machine

/-! ## The error of an address -/

/-- Bytes by which the decoder of `int3_real_work` misses the address of an operand, in 64-bit
addresses: a negative displacement is taken for a positive one, and the stack pointer is that of the
frame. -/
def AddressForm.error (f : AddressForm) (m : Memory) : Word :=
  (if f.dispNegative m then 1#64 <<< (8 * f.dispSize) else 0) -
    if f.base = some 4 then PtRegs.size else 0

/-- Bits of an address. -/
def addressBits (addr32 : Bool) : Nat := if addr32 then 32 else 64

/-- Cutting an address leaves its low bits. -/
theorem toNat_truncateAddress (addr32 : Bool) (a : Word) :
    (truncateAddress addr32 a).toNat = a.toNat % 2 ^ addressBits addr32 := by
  cases addr32 with
  | false => exact (Nat.mod_eq_of_lt a.isLt).symm
  | true =>
    have below : a.toNat % 2 ^ 32 < 2 ^ 64 :=
      Nat.lt_trans (Nat.mod_lt _ (by decide)) (by decide)
    show ((a.setWidth 32).setWidth 64).toNat = _
    rw [BitVec.toNat_setWidth, BitVec.toNat_setWidth]
    exact Nat.mod_eq_of_lt below

/-- A negative displacement that is read as a number is too great by the range of its width. -/
theorem setWidth_eq_signExtend_add {w : Nat} (narrow : w ≤ 32) (x : BitVec w) :
    x.setWidth 64 = x.signExtend 64 + if x.msb then 1#64 <<< w else 0 := by
  cases sign : x.msb with
  | false =>
    rw [BitVec.signExtend_eq_setWidth_of_msb_false sign, if_neg Bool.false_ne_true]
    exact (BitVec.add_zero _).symm
  | true =>
    have room : 2 ^ w ≤ 2 ^ 64 := Nat.pow_le_pow_right (by decide) (by omega)
    have below : 2 ^ w < 2 ^ 64 := Nat.pow_lt_pow_right (by decide) (by omega)
    have one : (1#64 <<< w).toNat = 2 ^ w := by
      rw [BitVec.toNat_shiftLeft, Nat.shiftLeft_eq]
      show 1 * 2 ^ w % 2 ^ 64 = 2 ^ w
      rw [Nat.one_mul, Nat.mod_eq_of_lt below]
    have small : (x.setWidth 64).toNat < 2 ^ 64 := BitVec.isLt _
    apply BitVec.eq_of_toNat_eq
    rw [if_pos rfl, BitVec.toNat_add, BitVec.toNat_signExtend, sign, if_pos rfl, one,
      Nat.add_assoc, Nat.sub_add_cancel room, Nat.add_mod_right, Nat.mod_eq_of_lt small]

namespace AddressForm

variable {f : AddressForm} (m : Memory)

/-- A displacement is taken for a number that is not negative. -/
theorem dispRead_eq (sized : f.dispSize = 0 ∨ f.dispSize = 1 ∨ f.dispSize = 4) :
    f.dispRead m = f.disp m + if f.dispNegative m then 1#64 <<< (8 * f.dispSize) else 0 := by
  have back (n : Nat) := m.setWidth_read f.dispAt n
  rcases sized with absent | short | long
  · simp [dispRead, disp, dispNegative, absent, Memory.read]
  · have reading := setWidth_eq_signExtend_add (by decide) ((m.read f.dispAt 1).setWidth 8)
    rw [back 1, msb_setWidth _ (by decide)] at reading
    rw [disp, if_pos short, dispRead, dispNegative, short]
    exact reading
  · have reading := setWidth_eq_signExtend_add (by decide) ((m.read f.dispAt 4).setWidth 32)
    rw [back 4, msb_setWidth _ (by decide)] at reading
    rw [disp, if_neg (by omega), if_pos long, dispRead, dispNegative, long]
    exact reading

/-- The decoder of `int3_real_work` misses the address by the error of the displacement and of the
stack pointer. -/
theorem lowered_eq (sized : f.dispSize = 0 ∨ f.dispSize = 1 ∨ f.dispSize = 4)
    (notIndex : ∀ scale, f.index ≠ some (4, scale)) (regs : PtRegs) :
    f.registers { regs with sp := regs.sp - PtRegs.size } + f.dispRead m =
      f.registers regs + f.disp m + f.error m := by
  rw [registers, registers, baseValue_lowered, indexValue_lowered f regs _ notIndex,
    dispRead_eq m sized, error]
  abel

/-- The errors that there are: none in the address size, or at least eight bytes either way. -/
theorem error_values : ∀ stack negative addr32 : Bool, ∀ size ∈ [0, 1, 4],
    (size = 0 → negative = false) →
      let error := (if negative then 1#64 <<< (8 * size) else 0) - if stack then PtRegs.size else 0
      (truncateAddress addr32 error = 0 ↔ stack = false ∧
        (negative = false ∨ (size = 4 ∧ addr32 = true))) ∧
      (truncateAddress addr32 error ≠ 0 → 8 ≤ (truncateAddress addr32 error).toNat ∧
        (truncateAddress addr32 error).toNat + 8 ≤ 2 ^ addressBits addr32) := by decide

/-- The address is right in the address size exactly when the base is not the stack pointer and the
displacement is not negative or is as wide as the address. Otherwise it is another one by at least
eight bytes. -/
theorem error_cases (sized : f.dispSize = 0 ∨ f.dispSize = 1 ∨ f.dispSize = 4) (addr32 : Bool) :
    (truncateAddress addr32 (f.error m) = 0 ↔ f.base ≠ some 4 ∧
      (f.dispNegative m = false ∨ (f.dispSize = 4 ∧ addr32 = true))) ∧
      (truncateAddress addr32 (f.error m) ≠ 0 →
        8 ≤ (truncateAddress addr32 (f.error m)).toNat ∧
          (truncateAddress addr32 (f.error m)).toNat + 8 ≤ 2 ^ addressBits addr32) := by
  have size : f.dispSize ∈ [0, 1, 4] := by simpa using sized
  have absent (zero : f.dispSize = 0) : f.dispNegative m = false := by
    rw [dispNegative, zero]
    exact BitVec.getLsbD_zero
  have values := error_values (decide (f.base = some 4)) (f.dispNegative m) addr32 f.dispSize size
    absent
  simpa only [error, decide_eq_true_eq, decide_eq_false_iff_not] using values

end AddressForm

/-- An address that is missed by at least eight bytes is in another block of at most that size. -/
theorem truncateAddress_block_iff {addr32 : Bool} {error : Word}
    (far : truncateAddress addr32 error ≠ 0 → 8 ≤ (truncateAddress addr32 error).toNat ∧
      (truncateAddress addr32 error).toNat + 8 ≤ 2 ^ addressBits addr32) (a : Word) {log : Nat}
    (small : log ≤ 3) :
    (truncateAddress addr32 a).toNat / 2 ^ log =
        (truncateAddress addr32 (a + error)).toNat / 2 ^ log ↔
      truncateAddress addr32 error = 0 := by
  have zero : truncateAddress addr32 error = 0 ↔ (truncateAddress addr32 error).toNat = 0 := by
    rw [← BitVec.toNat_inj]
    rfl
  have size : 2 ^ log ≤ 8 := Nat.pow_le_pow_right (by decide) small
  have positive := Nat.two_pow_pos log
  have whole : 2 ^ addressBits addr32 ∣ 2 ^ 64 := by cases addr32 <;> decide
  rw [Ne, zero] at far
  rw [zero]
  simp only [toNat_truncateAddress, BitVec.toNat_add, Nat.mod_mod_of_dvd _ whole] at far ⊢
  rw [Nat.add_mod]
  have room : 0 < 2 ^ addressBits addr32 := Nat.two_pow_pos _
  have below := Nat.mod_lt a.toNat room
  generalize 2 ^ addressBits addr32 = w at *
  generalize a.toNat % w = x at *
  generalize error.toNat % w = y at *
  generalize 2 ^ log = p at *
  by_cases none : y = 0
  · rw [none, Nat.add_zero, Nat.mod_eq_of_lt below]
    exact iff_of_true rfl rfl
  · refine iff_of_false (fun same => ?_) none
    have apart := far none
    have left := Nat.div_add_mod x p
    have right := Nat.div_add_mod ((x + y) % w) p
    have inside := Nat.mod_lt x positive
    have inside' := Nat.mod_lt ((x + y) % w) positive
    rw [same] at left
    by_cases round : x + y < w
    · rw [Nat.mod_eq_of_lt round] at left right inside'
      omega
    · rw [Nat.mod_eq_sub_mod (Nat.le_of_not_lt round), Nat.mod_eq_of_lt (by omega)]
        at left right inside'
      omega

/-! ## The request -/

/-- A length of an access in bits is positive, and the length again in bytes. -/
theorem bitLength_bytes {length : BitVec 16} (width : length.toNat ∈ [1, 2, 4, 8]) :
    0 < (length * 8).toInt ∧ ((length * 8).toInt / 8).toNat = length.toNat := by
  have back : length = BitVec.ofNat 16 length.toNat :=
    BitVec.eq_of_toNat_eq (by rw [BitVec.toNat_ofNat, Nat.mod_eq_of_lt length.isLt])
  simp only [List.mem_cons, List.not_mem_nil, or_false] at width
  rcases width with bytes | bytes | bytes | bytes <;> rw [back, bytes] <;> decide

/-- An instruction of a form, with its operand in memory at an address relative to registers. Its
bytes are not among those that the frame and the calls take on the stack. -/
structure Displaced (m : Memory) (regs : PtRegs) (e : Encoding) (f : Form) : Prop where
  known : f ∈ forms
  is : f.Is e (m (e.tail regs.ip))
  held : e.HeldAt m regs.ip
  form : IsMemoryForm (m (e.tail regs.ip))
  notBitString : (e.entry (m (e.tail regs.ip))).has Op.bitOp = false
  apart : ∀ k < e.length m regs.ip,
    offset regs.sp (regs.ip + BitVec.ofNat 64 k) < 2 ^ 64 - 192

/-- The access that the processor makes when it executes the instruction. -/
def Form.access (f : Form) (e : Encoding) (m : Memory) (regs : PtRegs) : MemAccess Word where
  bytes := { a | ∃ k < f.bytes e.opcode e.opBytes,
    a = (e.addressForm m regs.ip).effectiveAddress m regs e.addr32 + BitVec.ofNat 64 k }
  write := f.writes

namespace Displaced

variable {m : Memory} {regs : PtRegs} {e : Encoding} {f : Form}

/-- A displaced instruction has an entry that is described as its form is. -/
theorem entered (displaced : Displaced m regs e f) :
    f.Entered e.opcode (e.entry (m (e.tail regs.ip))) :=
  displaced.is.entered displaced.known displaced.form.1

/-- The opcode of a displaced instruction is one after any prefixes. -/
theorem isOpcode (displaced : Displaced m regs e f) : e.IsOpcode :=
  displaced.is.isOpcode displaced.known displaced.form.1

/-- The frame and the calls leave the instruction as it is. -/
theorem sameBytes (displaced : Displaced m regs e f) (work back : Word) :
    let frame := buildFrame work m regs
    m.SameBytes (enterRealWork back frame.1 frame.2).1 regs.ip regs.ip (e.length m regs.ip) := by
  intro frame k below
  have room := displaced.apart k below
  have above := atRealWork_above work back m regs
    (i := offset regs.sp (regs.ip + BitVec.ofNat 64 k)) (by omega)
  rw [add_offset] at above
  exact above.symm

/-- `int3_real_work` decodes a displaced instruction as it was, with the stack pointer of the frame.
-/
theorem decoded (displaced : Displaced m regs e f) (work back : Word) (out : Access) :
    let frame := buildFrame work m regs
    let entry := enterRealWork back frame.1 frame.2
    getDataInfo entry.1 (PtRegs.load entry.1 entry.2) out =
      getDataInfo m { regs with sp := regs.sp - PtRegs.size } out := by
  intro frame entry
  have loaded : PtRegs.load entry.1 entry.2 = { regs with sp := regs.sp - PtRegs.size } :=
    load_enterRealWork work back m regs
  have same := displaced.sameBytes work back
  rw [loaded, getDataInfo, getDataInfo]
  exact congrArg _ (@Encoding.yyGetMemoryAccess_congr e m entry.1
    { regs with sp := regs.sp - PtRegs.size } same displaced.held displaced.isOpcode out).symm

/-- The request to `wp_add`, if `int3_real_work` makes one, says what the decoder reported. -/
theorem requested (displaced : Displaced m regs e f) {work back : Word} {out : Access} {cpuid : Int}
    {trace : List Word} {req : WpRequest}
    (request : realWorkRequest (enterRealWork back (buildFrame work m regs).1
        (buildFrame work m regs).2).1 (enterRealWork back (buildFrame work m regs).1
        (buildFrame work m regs).2).2 out cpuid trace = some (some req)) :
    ¬f.operation.Missing ∧
      req.byteLength = (e.entry (m (e.tail regs.ip))).effectBytes e.opBytes ∧
      req.isWrite = (e.entry (m (e.tail regs.ip))).effectWrites ∧
      req.dataAddr = truncateAddress e.addr32 ((e.addressForm m regs.ip).registers regs +
        (e.addressForm m regs.ip).disp m + (e.addressForm m regs.ip).error m) := by
  have entered := displaced.entered
  unfold realWorkRequest at request
  rw [displaced.decoded work back out, getDataInfo] at request
  by_cases missing : f.operation.Missing
  · have nothing := @yyGetMemoryAccess_missing m { regs with sp := regs.sp - PtRegs.size } e out
      displaced.held displaced.isOpcode (entered.missing missing)
    rw [nothing] at request
    exact absurd request (by simp)
  · have names := entered.names missing
    have accesses : e.AccessesModRM m regs.ip :=
      ⟨displaced.held, ⟨names.modRM, names.operand, displaced.notBitString, names.notPush,
        names.explicit⟩, displaced.form, fun is =>
        entered.notInvlpg ⟨displaced.is.1 ▸ is.1, is.2.1⟩⟩
    obtain ⟨acc, decoded, bytes, nonzero, writes⟩ :=
      @yyGetMemoryAccess_form m { regs with sp := regs.sp - PtRegs.size } e out displaced.held names
        displaced.form.1 (displaced.is.1 ▸ entered.notInvlpg)
    obtain ⟨acc', decoded', address⟩ :=
      @yyGetMemoryAccess_modRM m { regs with sp := regs.sp - PtRegs.size } e out accesses
    cases Option.some.inj (decoded'.symm.trans decoded)
    rw [decoded] at request
    have width := (e.entry (m (e.tail regs.ip))).effectBytes_mem e.opBytes_sized
    rw [← bytes] at width ⊢
    obtain ⟨positive, same⟩ := bitLength_bytes width
    have first : Function.update acc.dataLength 0 (acc.dataLength 0 * 8) 0 = acc.dataLength 0 * 8 :=
      Function.update_self ..
    simp only [Option.map_some, first, if_pos positive, Option.some.injEq] at request
    subst request
    refine ⟨missing, same, writes, address.trans (congrArg _ ?_)⟩
    exact AddressForm.lowered_eq m (AddressForm.dispSize_cases m e.rex (e.tail regs.ip))
      (AddressForm.index_ne_sp m e.rex (e.tail regs.ip)) regs

end Displaced

/-! ## The watchpoint -/

/-- From `wp_add` for a displaced instruction until its slot is freed, whatever else is added and
removed meanwhile, a processor traps for exactly the accesses to the watched block. -/
theorem Displaced.traps_iff {κ : Type*} {m : Memory} {regs : PtRegs} {e : Encoding} {f : Form}
    (displaced : Displaced m regs e f) {work back : Word} {out : Access} {cpuid : Int}
    {trace : List Word} {req : WpRequest}
    (request : realWorkRequest (enterRealWork back (buildFrame work m regs).1
        (buildFrame work m regs).2).1 (enterRealWork back (buildFrame work m regs).1
        (buildFrame work m regs).2).2 out cpuid trace = some (some req))
    (s : DebugState κ) {past later : List WpCall} {t u : DebugState κ} {slot : Fin 4}
    (taken : Admits registerStep DebugState.Takes s.wpInit (past ++ .add req :: later))
    (reached : run registerStep s.wpInit past = some t) (free : t.table.freeSlot = some slot)
    (kept : Admits registerStep (fun s call => ¬s.table.Frees slot call) (t.wpAdd req) later)
    (ran : run registerStep (t.wpAdd req) later = some u) (cpu : κ) :
    let a := e.addressForm m regs.ip
    let n := f.bytes e.opcode e.opBytes
    let address := a.effectiveAddress m regs e.addr32
    (∀ x, (u.regs cpu).Traps slot x ↔ (f.access e m regs).Conflicts x) ↔
      f.operation.Described e.opBytes ∧ n ∣ address.toNat ∧
        (req.dataAddr ≠ 0 → a.base ≠ some 4 ∧
          (a.dispNegative m = false ∨ (a.dispSize = 4 ∧ e.addr32 = true))) ∧
        (req.dataAddr = 0 → ((t.regs cpu).dr slot).toNat / n = address.toNat / n) := by
  intro a n address
  obtain ⟨missing, bytes, writes, place⟩ := displaced.requested request
  have entered := displaced.entered
  obtain ⟨positive, atMost⟩ := entered.accessed e.opBytes e.opBytes_sized
  obtain ⟨log, small, size, traps⟩ := s.traps_added taken reached free kept ran cpu
  have eight : 2 ^ log ≤ 2 ^ 3 := by
    have width := Flags.effectBytes_mem (e.entry (m (e.tail regs.ip))) e.opBytes_sized
    rw [← bytes, ← size] at width
    simp only [List.mem_cons, List.not_mem_nil, or_false] at width
    omega
  have short : log ≤ 3 := (Nat.pow_le_pow_iff_right (by decide)).mp eight
  have fits : 2 ^ log + n ≤ 2 ^ 64 := by omega
  have watched := block_eq_range_iff small positive fits (a := address)
    (d := t.registerFor slot req cpu)
  have detects := @trips_iff_conflicts Word { b | b.toNat / 2 ^ log =
    (t.registerFor slot req cpu).toNat / 2 ^ log } req.isWrite
    (f.access e m regs) ⟨_, 0, positive, rfl⟩
  have places : (f.access e m regs).bytes = { b | ∃ k < n, b = address + BitVec.ofNat 64 k } := rfl
  rw [forall_congr' fun x => iff_congr (traps x) Iff.rfl, detects, places, watched]
  have effect := entered.effect e.opBytes e.opBytes_sized missing
  rw [← bytes, ← writes, ← size] at effect
  have mode : (f.access e m regs).write = f.writes := rfl
  rw [mode]
  by_cases described : f.operation.Described e.opBytes
  · obtain ⟨width, direction⟩ := effect.mpr described
    have length : n = 2 ^ log := width.symm
    rw [and_iff_left direction, and_iff_left width, length, and_iff_right described]
    refine and_congr_right fun _ => ?_
    unfold DebugState.registerFor
    by_cases zero : req.dataAddr = 0
    · rw [if_neg (not_not.mpr zero), eq_comm]
      exact ⟨fun same => ⟨fun other => absurd zero other, fun _ => same⟩, fun both => both.2 zero⟩
    · have cases := AddressForm.error_cases m
        (AddressForm.dispSize_cases m e.rex (e.tail regs.ip)) e.addr32
      have missed : address.toNat / 2 ^ log = req.dataAddr.toNat / 2 ^ log ↔
          truncateAddress e.addr32 (a.error m) = 0 := by
        rw [place]
        exact truncateAddress_block_iff cases.2 _ short
      rw [if_pos zero]
      refine (missed.trans cases.1).trans ?_
      exact ⟨fun right => ⟨fun _ => right, fun isZero => absurd isZero zero⟩,
        fun both => both.1 zero⟩
  · refine iff_of_false (fun both => described ?_) (fun right => described right.1)
    exact effect.mp ⟨both.1.2, both.2⟩

end Drddr
