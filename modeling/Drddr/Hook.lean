import Drddr.Machine.Scan

/-!
# Hooking the trap handlers

The kernel's entry code calls the C handler of a trap by a relative call. `swap_handler`
finds that call, the second byte `0xE8` from the entry on, and retargets it. Calls and
targets lie in the top two gigabytes, so the low 32 bits of an address determine it.
-/

namespace Drddr

open Machine

/-- `drddr_get_handler`: the entry address in a gate of the interrupt table. -/
def drddrGetHandler (m : Memory) (idtTableAddr : Word) (offset : Nat) : Word :=
  let gate := idtTableAddr + BitVec.ofNat 64 (16 * offset)
  (m.read (gate + 8#64) 4 <<< 32) + (m.read (gate + 6#64) 2 <<< 16) + m.read gate 2

/-- The two scans of `swap_handler`. There is no call site if a scan or the call it finds
leaves the address space, which the C pointer may not do. -/
def callSite (m : Memory) (handler : Word) : Option Word :=
  (m.findByte 0xE8 (2 ^ 64 - handler.toNat) handler).bind fun q =>
    (m.findByte 0xE8 (2 ^ 64 - (q.toNat + 1)) (q + 1#64)).filter fun p => p.toNat + 4 < 2 ^ 64

/-- The offset of the call at an address. -/
def relOffset (m : Memory) (p : Word) : BitVec 32 := (m.read (p + 1#64) 4).setWidth 32

/-- Store an offset, one byte after the other. -/
def patchCall (m : Memory) (p : Word) (offset : BitVec 32) : Memory :=
  (((m.set (p + 1#64) ((offset &&& 0x000000ff).setWidth 8)).set
      (p + 2#64) (((offset &&& 0x0000ff00) >>> 8).setWidth 8)).set
      (p + 3#64) (((offset &&& 0x00ff0000) >>> 16).setWidth 8)).set
      (p + 4#64) (((offset &&& 0xff000000) >>> 24).setWidth 8)

/-- `swap_handler`. -/
def swapHandler (m : Memory) (handler : Word) (myDoSomething : BitVec 32) :
    Option (Memory × Word) :=
  (callSite m handler).map fun p =>
    let orig := relOffset m p + p.setWidth 32 + 5#32
    let offset := myDoSomething - p.setWidth 32 - 5#32
    (patchCall m p offset, 0xffffffff00000000#64 + orig.setWidth 64)

/-- The hooking in `init_drddr`: the memory it leaves, `old_do_int3` and `old_do_debug`. -/
def initDrddr (m : Memory) (idt : Word) (int3 debug : BitVec 32) : Option (Memory × Word × Word) :=
  (swapHandler m (drddrGetHandler m idt 3) int3).bind fun (m, oldDoInt3) =>
    (swapHandler m (drddrGetHandler m idt 1) debug).map fun (m, oldDoDebug) =>
      (m, oldDoInt3, oldDoDebug)

/-- The unhooking in `exit_drddr`; the old handlers are truncated to `int`. -/
def exitDrddr (m : Memory) (idt oldDoInt3 oldDoDebug : Word) : Option Memory :=
  (swapHandler m (drddrGetHandler m idt 1) (oldDoDebug.setWidth 32)).bind fun (m, _) =>
    (swapHandler m (drddrGetHandler m idt 3) (oldDoInt3.setWidth 32)).map fun (m, _) => m

/-! ## What hooking means to the processor -/

/-- Where the relative call at an address goes. -/
def callTarget (m : Memory) (p : Word) : Word := p + 5#64 + (relOffset m p).signExtend 64

/-- An address in the top two gigabytes. -/
def TopTwoGB (a : Word) : Prop := 0xffffffff80000000 ≤ a.toNat

instance (a : Word) : Decidable (TopTwoGB a) := inferInstanceAs (Decidable (_ ≤ _))

/-- The call at `p` was retargeted to `f`, and its old target was returned. -/
structure Swapped (m : Memory) (p f : Word) (m' : Memory) (old : Word) : Prop where
  /-- Only the four bytes of the offset change. -/
  frame : ∀ x, x ∉ [p + 1#64, p + 2#64, p + 3#64, p + 4#64] → m' x = m x
  /-- With everything in the top two gigabytes, the addresses are exact. -/
  target : TopTwoGB p → TopTwoGB (callTarget m p) → TopTwoGB f →
    callTarget m' p = f ∧ old = callTarget m p

/-! ## Call sites -/

/-- The call site is the second `0xE8` from the entry on. -/
theorem callSite_eq_some {m : Memory} {handler p : Word} :
    callSite m handler = some p ↔ ∃ q, m.findByte 0xE8 (2 ^ 64 - handler.toNat) handler = some q ∧
      m.findByte 0xE8 (2 ^ 64 - (q.toNat + 1)) (q + 1#64) = some p ∧ p.toNat + 4 < 2 ^ 64 := by
  simp [callSite, Option.bind_eq_some_iff, Option.filter_eq_some_iff]

/-- The second scan starts within the address space. -/
theorem second_fits (q : Word) : (q + 1#64).toNat + (2 ^ 64 - (q.toNat + 1)) ≤ 2 ^ 64 := by
  have bound := q.isLt
  rw [BitVec.toNat_add, BitVec.toNat_ofNat]
  omega

/-- Changing only bytes above a call site keeps it the call site. -/
theorem callSite_congr {m m' : Memory} {handler p : Word} (site : callSite m handler = some p)
    (agree : ∀ x : Word, x.toNat ≤ p.toNat → m' x = m x) : callSite m' handler = some p := by
  obtain ⟨q, first, second, room⟩ := callSite_eq_some.mp site
  have entry : handler.toNat + (2 ^ 64 - handler.toNat) ≤ 2 ^ 64 := by
    have bound := handler.isLt
    omega
  have found := (Memory.findByte_eq_some (second_fits q)).mp second
  have below : q.toNat ≤ p.toNat := by
    have lower := found.1
    have upper := found.2.1
    rw [BitVec.toNat_add, BitVec.toNat_ofNat] at lower upper
    omega
  apply callSite_eq_some.mpr
  refine ⟨q, ?_, ?_, room⟩
  · exact Memory.findByte_congr entry first fun x le => agree x (le.trans below)
  · exact Memory.findByte_congr (second_fits q) second agree

/-! ## Patching an offset -/

/-- A masked and shifted byte of an offset is the byte of that place. -/
theorem offset_byte (offset mask : BitVec 32) (k : Nat) (place : k < 4)
    (full : ∀ i : Fin 8, mask.getLsbD (8 * k + i) = true) :
    ((offset &&& mask) >>> (8 * k)).setWidth 8 = Memory.byteOf (offset.setWidth 64) k := by
  apply BitVec.eq_of_getLsbD_eq
  intro i hi
  have kept : mask.getLsbD (8 * k + i) = true := full ⟨i, hi⟩
  have inside : 8 * k + i < 64 := by omega
  simp only [Memory.byteOf, BitVec.getLsbD_setWidth, BitVec.getLsbD_ushiftRight, BitVec.getLsbD_and,
    kept, Bool.and_true, inside, decide_true, Bool.true_and]

/-- Each patched byte has its place in the offset. -/
theorem offset_place (p : Word) {k : Nat} (small : k < 4) :
    offset (p + 1#64) (p + BitVec.ofNat 64 (k + 1)) = k := by
  have place : p + BitVec.ofNat 64 (k + 1) = p + 1#64 + BitVec.ofNat 64 k := by
    rw [Nat.add_comm, BitVec.ofNat_add, BitVec.add_assoc]
  rw [place]
  exact offset_add _ _ (by omega)

/-- The four bytes of the offset are those at distance less than four. -/
theorem patched_iff (p x : Word) :
    x ∈ [p + 1#64, p + 2#64, p + 3#64, p + 4#64] ↔ offset (p + 1#64) x < 4 := by
  simp only [List.mem_cons, List.not_mem_nil, or_false]
  constructor
  · rintro (rfl | rfl | rfl | rfl)
    · exact (offset_place p (k := 0) (by decide)).trans_lt (by decide)
    · exact (offset_place p (k := 1) (by decide)).trans_lt (by decide)
    · exact (offset_place p (k := 2) (by decide)).trans_lt (by decide)
    · exact (offset_place p (k := 3) (by decide)).trans_lt (by decide)
  · intro near
    have cases : offset (p + 1#64) x = 0 ∨ offset (p + 1#64) x = 1 ∨ offset (p + 1#64) x = 2 ∨
        offset (p + 1#64) x = 3 := by omega
    have at_ {k : Nat} (small : k < 4) (eq : offset (p + 1#64) x = k) :
        x = p + BitVec.ofNat 64 (k + 1) :=
      offset_injective (p + 1#64) (eq.trans (offset_place p small).symm)
    rcases cases with eq | eq | eq | eq
    · exact .inl (at_ (by decide) eq)
    · exact .inr (.inl (at_ (by decide) eq))
    · exact .inr (.inr (.inl (at_ (by decide) eq)))
    · exact .inr (.inr (.inr (at_ (by decide) eq)))

/-- Patching is a four-byte little-endian write. -/
theorem patchCall_eq_write (m : Memory) (p : Word) (rel : BitVec 32) :
    patchCall m p rel = m.write (p + 1#64) 4 (rel.setWidth 64) := by
  have b0 := offset_byte rel 0x000000ff 0 (by decide) (by decide)
  have b1 := offset_byte rel 0x0000ff00 1 (by decide) (by decide)
  have b2 := offset_byte rel 0x00ff0000 2 (by decide) (by decide)
  have b3 := offset_byte rel 0xff000000 3 (by decide) (by decide)
  simp only [Nat.mul_zero, BitVec.ushiftRight_zero, Nat.mul_one, Nat.reduceMul] at b0 b1 b2 b3
  have inside {k : Nat} (small : k < 4) :
      m.write (p + 1#64) 4 (rel.setWidth 64) (p + BitVec.ofNat 64 (k + 1)) =
        Memory.byteOf (rel.setWidth 64) k := by
    have place := offset_place p small
    rw [Memory.write_of_lt _ _ _ _ (by omega), place]
  funext x
  simp only [patchCall, b0, b1, b2, b3]
  by_cases x4 : x = p + 4#64
  · rw [x4, Memory.set_self]
    exact (inside (k := 3) (by decide)).symm
  by_cases x3 : x = p + 3#64
  · rw [Memory.set_of_ne _ _ x4, x3, Memory.set_self]
    exact (inside (k := 2) (by decide)).symm
  by_cases x2 : x = p + 2#64
  · rw [Memory.set_of_ne _ _ x4, Memory.set_of_ne _ _ x3, x2, Memory.set_self]
    exact (inside (k := 1) (by decide)).symm
  by_cases x1 : x = p + 1#64
  · rw [Memory.set_of_ne _ _ x4, Memory.set_of_ne _ _ x3, Memory.set_of_ne _ _ x2, x1,
      Memory.set_self]
    exact (inside (k := 0) (by decide)).symm
  · have outside : ¬offset (p + 1#64) x < 4 := by
      rw [← patched_iff]
      simp [x1, x2, x3, x4]
    rw [Memory.set_of_ne _ _ x4, Memory.set_of_ne _ _ x3, Memory.set_of_ne _ _ x2,
      Memory.set_of_ne _ _ x1, Memory.write_of_le _ _ _ _ (Nat.not_lt.mp outside)]

/-- Every other byte is unchanged. -/
theorem patchCall_frame (m : Memory) {p x : Word} (rel : BitVec 32)
    (outside : x ∉ [p + 1#64, p + 2#64, p + 3#64, p + 4#64]) : patchCall m p rel x = m x := by
  rw [patched_iff] at outside
  rw [patchCall_eq_write, Memory.write_of_le _ _ _ _ (Nat.not_lt.mp outside)]

/-- No byte up to the call's opcode is patched. -/
theorem patchCall_below (m : Memory) {p x : Word} (rel : BitVec 32) (room : p.toNat + 4 < 2 ^ 64)
    (le : x.toNat ≤ p.toNat) : patchCall m p rel x = m x := by
  apply patchCall_frame
  rw [patched_iff, offset, BitVec.toNat_sub, BitVec.toNat_add, BitVec.toNat_ofNat]
  omega

/-- The patched offset is read back. -/
theorem relOffset_patchCall (m : Memory) (p : Word) (rel : BitVec 32) :
    relOffset (patchCall m p rel) p = rel := by
  rw [relOffset, patchCall_eq_write, Memory.read_write]
  apply BitVec.eq_of_getLsbD_eq
  intro i hi
  simp [hi]

/-- Patching the old offset back undoes a patch. -/
theorem patchCall_undo (m : Memory) (p : Word) (rel : BitVec 32) :
    patchCall (patchCall m p rel) p (relOffset m p) = m := by
  have whole : (relOffset m p).setWidth 64 = m.read (p + 1#64) 4 := Memory.setWidth_read m _ 4
  rw [patchCall_eq_write, patchCall_eq_write, Memory.write_write, whole,
    Memory.write_read m _ (by decide)]

/-! ## Swapping and swapping back -/

/-- An offset that is not negative is sign-extended to itself, any other by the high half. -/
theorem toNat_signExtend_offset (rel : BitVec 32) : (rel.signExtend 64).toNat =
    if rel.toNat < 2 ^ 31 then rel.toNat else rel.toNat + (2 ^ 64 - 2 ^ 32) := by
  have bound := rel.isLt
  rw [BitVec.toNat_signExtend, BitVec.toNat_setWidth, BitVec.msb_eq_decide,
    Nat.mod_eq_of_lt (by omega)]
  simp only [decide_eq_true_eq]
  split <;> split <;> omega

/-- Between addresses of the top two gigabytes the 32-bit difference is the whole distance. -/
theorem target_of_difference {p f : Word} (site : TopTwoGB p) (function : TopTwoGB f)
    (room : p.toNat + 4 < 2 ^ 64) :
    p + 5#64 + (f.setWidth 32 - p.setWidth 32 - 5#32).signExtend 64 = f := by
  unfold TopTwoGB at site function
  have siteBound := p.isLt
  have functionBound := f.isLt
  apply BitVec.eq_of_toNat_eq
  simp only [BitVec.toNat_add, toNat_signExtend_offset, BitVec.toNat_sub, BitVec.toNat_setWidth,
    BitVec.toNat_ofNat]
  split <;> omega

/-- The low half of a target of the top two gigabytes determines it. -/
theorem target_of_low_half {p : Word} {rel : BitVec 32}
    (target : TopTwoGB (p + 5#64 + rel.signExtend 64)) :
    0xffffffff00000000#64 + (rel + p.setWidth 32 + 5#32).setWidth 64 =
      p + 5#64 + rel.signExtend 64 := by
  unfold TopTwoGB at target
  have siteBound := p.isLt
  have relBound := rel.isLt
  apply BitVec.eq_of_toNat_eq
  simp only [BitVec.toNat_add, toNat_signExtend_offset, BitVec.toNat_setWidth,
    BitVec.toNat_ofNat] at target ⊢
  split at target
  · rename_i low
    simp only [low, if_true]
    omega
  · rename_i high
    simp only [high, if_false]
    omega

/-- What a swap returns, truncated to `int` and made relative again, is the old offset. -/
theorem old_offset (p : Word) (rel : BitVec 32) :
    (0xffffffff00000000#64 + (rel + p.setWidth 32 + 5#32).setWidth 64).setWidth 32 -
      p.setWidth 32 - 5#32 = rel := by
  have relBound := rel.isLt
  apply BitVec.eq_of_toNat_eq
  simp only [BitVec.toNat_sub, BitVec.toNat_add, BitVec.toNat_setWidth, BitVec.toNat_ofNat]
  omega

/-- A swap patches the call site found and returns the old target. -/
theorem swapHandler_of_site {m : Memory} {handler p : Word} (site : callSite m handler = some p)
    (f : BitVec 32) : swapHandler m handler f =
      some (patchCall m p (f - p.setWidth 32 - 5#32),
        0xffffffff00000000#64 + (relOffset m p + p.setWidth 32 + 5#32).setWidth 64) := by
  rw [swapHandler, site]
  rfl

/-- A swap retargets exactly the call at the site. -/
theorem swapped_of_site {m : Memory} {handler p : Word} (site : callSite m handler = some p)
    (f : Word) : Swapped m p f (patchCall m p (f.setWidth 32 - p.setWidth 32 - 5#32))
      (0xffffffff00000000#64 + (relOffset m p + p.setWidth 32 + 5#32).setWidth 64) := by
  obtain ⟨-, -, -, room⟩ := callSite_eq_some.mp site
  constructor
  · intro x outside
    exact patchCall_frame m _ outside
  · intro top old function
    have new : callTarget (patchCall m p (f.setWidth 32 - p.setWidth 32 - 5#32)) p = f := by
      rw [callTarget, relOffset_patchCall]
      exact target_of_difference top function room
    exact ⟨new, target_of_low_half old⟩

/-- Swapping back finds the same call site and restores the memory. -/
theorem swapHandler_back {m m' : Memory} {handler p old : Word} {f : BitVec 32}
    (site : callSite m handler = some p) (swap : swapHandler m handler f = some (m', old)) :
    ∃ again, swapHandler m' handler (old.setWidth 32) = some (m, again) := by
  obtain ⟨-, -, -, room⟩ := callSite_eq_some.mp site
  rw [swapHandler_of_site site] at swap
  obtain ⟨rfl, rfl⟩ := Prod.mk.inj (Option.some.inj swap)
  have same : callSite (patchCall m p (f - p.setWidth 32 - 5#32)) handler = some p :=
    callSite_congr site fun x le => patchCall_below m _ room le
  rw [swapHandler_of_site same, old_offset, patchCall_undo]
  exact ⟨_, rfl⟩

/-! ## Loading and unloading the module -/

/-- No byte of the two gates lies in the offset of the call. -/
def GatesApart (idt p : Word) : Prop :=
  ∀ v ∈ [1, 3], ∀ i < 16,
    idt + BitVec.ofNat 64 (16 * v + i) ∉ [p + 1#64, p + 2#64, p + 3#64, p + 4#64]

/-- A gate is read from its own sixteen bytes. -/
theorem drddrGetHandler_congr {m m' : Memory} {idt : Word} {v : Nat}
    (same : ∀ i < 16, m' (idt + BitVec.ofNat 64 (16 * v + i)) =
      m (idt + BitVec.ofNat 64 (16 * v + i))) :
    drddrGetHandler m' idt v = drddrGetHandler m idt v := by
  have part (start n : Nat) (inside : start + n ≤ 16) :
      m'.read (idt + BitVec.ofNat 64 (16 * v) + BitVec.ofNat 64 start) n =
        m.read (idt + BitVec.ofNat 64 (16 * v) + BitVec.ofNat 64 start) n := by
    apply Memory.read_congr
    intro i hi
    have place : idt + BitVec.ofNat 64 (16 * v) + BitVec.ofNat 64 start + BitVec.ofNat 64 i =
        idt + BitVec.ofNat 64 (16 * v + (start + i)) := by
      rw [BitVec.ofNat_add, BitVec.ofNat_add, BitVec.add_assoc, BitVec.add_assoc]
    rw [place]
    exact same _ (by omega)
  have low := part 0 2 (by decide)
  have mid := part 6 2 (by decide)
  have high := part 8 4 (by decide)
  simp only [BitVec.add_zero] at low
  simp only [drddrGetHandler, low, mid, high]

/-- A swap whose call lies apart from the gates leaves the gates alone. -/
theorem drddrGetHandler_swap {m m' : Memory} {idt handler p old : Word} {f : BitVec 32} {v : Nat}
    (gate : v ∈ [1, 3]) (site : callSite m handler = some p) (apart : GatesApart idt p)
    (swap : swapHandler m handler f = some (m', old)) :
    drddrGetHandler m' idt v = drddrGetHandler m idt v := by
  rw [swapHandler_of_site site] at swap
  obtain ⟨rfl, -⟩ := Prod.mk.inj (Option.some.inj swap)
  apply drddrGetHandler_congr
  intro i hi
  exact patchCall_frame m _ (apart v gate i hi)

/-- Unloading the module restores the memory in which it was loaded, if neither call overlaps
the two gates that are read again. -/
theorem exitDrddr_restores {m : Memory} {idt p3 p1 : Word} (int3 debug : BitVec 32)
    (site3 : callSite m (drddrGetHandler m idt 3) = some p3) (apart3 : GatesApart idt p3)
    (site1 : ∀ m₁ old, swapHandler m (drddrGetHandler m idt 3) int3 = some (m₁, old) →
      callSite m₁ (drddrGetHandler m idt 1) = some p1) (apart1 : GatesApart idt p1) :
    ∃ m₂ old3 old1, initDrddr m idt int3 debug = some (m₂, old3, old1) ∧
      exitDrddr m₂ idt old3 old1 = some m := by
  obtain ⟨m₁, old3, swap3⟩ : ∃ m₁ old3,
      swapHandler m (drddrGetHandler m idt 3) int3 = some (m₁, old3) :=
    ⟨_, _, swapHandler_of_site site3 int3⟩
  have found1 := site1 m₁ old3 swap3
  obtain ⟨m₂, old1, swap1⟩ : ∃ m₂ old1,
      swapHandler m₁ (drddrGetHandler m idt 1) debug = some (m₂, old1) :=
    ⟨_, _, swapHandler_of_site found1 debug⟩
  obtain ⟨last1, back1⟩ := swapHandler_back found1 swap1
  obtain ⟨last3, back3⟩ := swapHandler_back site3 swap3
  have three₁ := drddrGetHandler_swap (by decide : 3 ∈ [1, 3]) site3 apart3 swap3
  have one₁ := drddrGetHandler_swap (by decide : 1 ∈ [1, 3]) site3 apart3 swap3
  have one₂ := drddrGetHandler_swap (by decide : 1 ∈ [1, 3]) found1 apart1 swap1
  refine ⟨m₂, old3, old1, ?_, ?_⟩
  · simp only [initDrddr, swap3, Option.bind_some, one₁, swap1, Option.map_some]
  · simp only [exitDrddr, one₂, one₁, back1, Option.bind_some, three₁, back3, Option.map_some]

/-! ## Hooking is exact -/

/-- Swapping two handlers, the first on the memory as it is and the second on the memory the
first swap leaves, retargets exactly the two calls; swapping them back in the opposite order
restores every byte, wherever the two call sites lie. -/
theorem swapHandler_exact {m : Memory} {h3 h1 p3 p1 : Word} (f3 f1 : Word)
    (site3 : callSite m h3 = some p3)
    (site1 : ∀ m₁ old, swapHandler m h3 (f3.setWidth 32) = some (m₁, old) →
      callSite m₁ h1 = some p1) :
    ∃ m₁ old3 m₂ old1 last3 last1,
      swapHandler m h3 (f3.setWidth 32) = some (m₁, old3) ∧ Swapped m p3 f3 m₁ old3 ∧
      swapHandler m₁ h1 (f1.setWidth 32) = some (m₂, old1) ∧ Swapped m₁ p1 f1 m₂ old1 ∧
      swapHandler m₂ h1 (old1.setWidth 32) = some (m₁, last1) ∧
      swapHandler m₁ h3 (old3.setWidth 32) = some (m, last3) := by
  have swap3 := swapHandler_of_site site3 (f3.setWidth 32)
  have found1 := site1 _ _ swap3
  have swap1 := swapHandler_of_site found1 (f1.setWidth 32)
  obtain ⟨last1, back1⟩ := swapHandler_back found1 swap1
  obtain ⟨last3, back3⟩ := swapHandler_back site3 swap3
  exact ⟨_, _, _, _, last3, last1, swap3, swapped_of_site site3 f3, swap1,
    swapped_of_site found1 f1, back1, back3⟩

/-- Code in which both scans end at one call, entered one byte apart. -/
def sharedCall : Memory := fun a =>
  if a = 0xffffffff81000000 ∨ a = 0xffffffff81000001 then 0xE8 else 0x90

/-- Two handlers reached through one call are hooked and unhooked. -/
theorem swapHandler_exact_shared :
    ∃ m₁ old3 m₂ old1 last3 last1,
      swapHandler sharedCall 0xffffffff81000000 0xa0000000 = some (m₁, old3) ∧
      Swapped sharedCall 0xffffffff81000001 0xffffffffa0000000 m₁ old3 ∧
      swapHandler m₁ 0xffffffff80ffffff 0xa0001000 = some (m₂, old1) ∧
      Swapped m₁ 0xffffffff81000001 0xffffffffa0001000 m₂ old1 ∧
      swapHandler m₂ 0xffffffff80ffffff (old1.setWidth 32) = some (m₁, last1) ∧
      swapHandler m₁ 0xffffffff81000000 (old3.setWidth 32) = some (sharedCall, last3) := by
  have site3 : callSite sharedCall 0xffffffff81000000 = some 0xffffffff81000001 := by
    decide
  apply swapHandler_exact 0xffffffffa0000000 0xffffffffa0001000 site3
  intro m₁ old swap
  rw [swapHandler_of_site site3] at swap
  obtain ⟨rfl, -⟩ := Prod.mk.inj (Option.some.inj swap)
  decide

end Drddr
