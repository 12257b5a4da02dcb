import Drddr.Driver.Pages
import Drddr.Hook

/-!
# The module from its loading to its unloading

`init_drddr` hooks the two handlers in the memory that the breakpoints are planted in later;
`exit_drddr` stops the driver and takes the hooks out again. The breakpoints are planted and taken
back in between, so each part finds the memory that it has left, wherever the addresses of the
lists lie.
-/

namespace Drddr

open Machine

/-- `init_drddr`: the driver, and the old handlers. -/
def loadModule (m : Memory) (wp : WpTable) (idt int3 debug : Word) :
    Option (Driver × Word × Word) :=
  (initDrddr m idt (int3.setWidth 32) (debug.setWidth 32)).map fun hooked =>
    (loadDriver hooked.1 wp, hooked.2.1, hooked.2.2)

/-- `exit_drddr`, when `stop` has returned in it. -/
def unloadModule (s : Driver) (idt oldDoInt3 oldDoDebug : Word) : Option Memory :=
  exitDrddr s.shared.bp.text idt oldDoInt3 oldDoDebug

/-- Where `swap_handler` writes: the offset of the call. -/
def offsetBytes (p : Word) : List Word := [p + 1#64, p + 2#64, p + 3#64, p + 4#64]

/-- The pages of an offset: `swap_handler` makes them writable, and read-only again when it has
written. -/
def offsetPages (p : Word) : List Word := [page (p + 1#64), page (p + 4#64)]

/-! ## The pages of a call -/

/-- A page is given by all bits of the address but the last twelve. -/
theorem page_eq_shift (p : Word) : page p = p >>> 12 <<< 12 := by
  have masks : ∀ i : Fin 64, (~~~(1#64 <<< 12 - 1#64) : Word).getLsbD i = decide (12 ≤ i.val) := by
    decide
  apply BitVec.eq_of_getLsbD_eq
  intro i hi
  have mask : (~~~(1#64 <<< 12 - 1#64) : Word).getLsbD i = decide (12 ≤ i) := masks ⟨i, hi⟩
  rw [page, BitVec.getLsbD_and, mask, BitVec.getLsbD_shiftLeft, BitVec.getLsbD_ushiftRight]
  by_cases high : 12 ≤ i
  · have back : 12 + (i - 12) = i := by omega
    simp [high, hi, back, Nat.not_lt.mpr high]
  · simp [high, Nat.not_le.mp high]

/-- Two addresses lie in one page if their numbers do. -/
theorem page_congr {p q : Word} (same : p.toNat / 4096 = q.toNat / 4096) : page p = page q := by
  have shifted : p >>> 12 = q >>> 12 := by
    apply BitVec.eq_of_toNat_eq
    rw [BitVec.toNat_ushiftRight, BitVec.toNat_ushiftRight, Nat.shiftRight_eq_div_pow,
      Nat.shiftRight_eq_div_pow]
    exact same
  rw [page_eq_shift, page_eq_shift, shifted]

/-- What `swap_handler` writes lies in the pages that it has made writable, also where the call
lies across the border of two pages. -/
theorem page_of_offset {m : Memory} {handler p : Word} (site : callSite m handler = some p) :
    ∀ a ∈ offsetBytes p, page a ∈ offsetPages p := by
  obtain ⟨-, -, -, room⟩ := callSite_eq_some.mp site
  have place (k : Nat) (small : k ≤ 4) : (p + BitVec.ofNat 64 k).toNat = p.toNat + k := by
    rw [BitVec.toNat_add, BitVec.toNat_ofNat, Nat.mod_eq_of_lt (by omega : k < 2 ^ 64)]
    exact Nat.mod_eq_of_lt (by omega)
  have inside (k : Nat) (first : 1 ≤ k) (last : k ≤ 4) :
      page (p + BitVec.ofNat 64 k) ∈ offsetPages p := by
    have low := place 1 (by decide)
    have high := place 4 (by decide)
    have here := place k last
    by_cases before : (p.toNat + k) / 4096 = (p.toNat + 1) / 4096
    · have same : page (p + BitVec.ofNat 64 k) = page (p + 1#64) :=
        page_congr (by rw [here, low, before])
      rw [same]
      exact List.mem_cons_self
    · have same : page (p + BitVec.ofNat 64 k) = page (p + 4#64) :=
        page_congr (by rw [here, high]; omega)
      rw [same]
      exact List.mem_cons_of_mem _ List.mem_cons_self
  intro a stored
  unfold offsetBytes at stored
  simp only [List.mem_cons, List.not_mem_nil, or_false] at stored
  rcases stored with rfl | rfl | rfl | rfl
  · exact inside 1 (by decide) (by decide)
  · exact inside 2 (by decide) (by decide)
  · exact inside 3 (by decide) (by decide)
  · exact inside 4 (by decide) (by decide)

/-! ## Hooked and unhooked -/

/-- A call whose offset is the same goes to the same place. -/
theorem callTarget_congr {m m' : Memory} {p : Word} (same : ∀ a ∈ offsetBytes p, m' a = m a) :
    callTarget m' p = callTarget m p := by
  have read : m'.read (p + 1#64) 4 = m.read (p + 1#64) 4 := by
    apply Memory.read_congr
    intro i hi
    have inside : p + 1#64 + BitVec.ofNat 64 i ∈ offsetBytes p := by
      unfold offsetBytes
      rw [patched_iff, offset_add _ _ (by omega)]
      exact hi
    exact same _ inside
  rw [callTarget, callTarget, relOffset, relOffset, read]

/-- A swap leads its call to the new function. -/
theorem callTarget_swap {m m' : Memory} {handler p old f : Word}
    (site : callSite m handler = some p) (top : TopTwoGB p) (function : TopTwoGB f)
    (swap : swapHandler m handler (f.setWidth 32) = some (m', old)) : callTarget m' p = f := by
  obtain ⟨-, -, -, room⟩ := callSite_eq_some.mp site
  rw [swapHandler_of_site site] at swap
  obtain ⟨rfl, -⟩ := Prod.mk.inj (Option.some.inj swap)
  rw [callTarget, relOffset_patchCall]
  exact target_of_difference top function room

/-- The module is loaded. In every state of every orderly run after that, the calls of the entry
code go to the handlers of the driver, if no breakpoint is planted in their offsets and the one
call is not the other; and when the driver has been stopped, unloading the module leaves the memory
as it was before it was loaded, whatever has been planted in between. -/
theorem module_restores {m : Memory} {idt p3 p1 : Word} (wp : WpTable) (int3 debug : Word)
    (top3 : TopTwoGB p3) (top1 : TopTwoGB p1) (topInt3 : TopTwoGB int3) (topDebug : TopTwoGB debug)
    (site3 : callSite m (drddrGetHandler m idt 3) = some p3) (apart3 : GatesApart idt p3)
    (site1 : ∀ m₁ old, swapHandler m (drddrGetHandler m idt 3) (int3.setWidth 32) = some (m₁, old) →
      callSite m₁ (drddrGetHandler m idt 1) = some p1) (apart1 : GatesApart idt p1) :
    ∃ loaded oldDoInt3 oldDoDebug,
      loadModule m wp idt int3 debug = some (loaded, oldDoInt3, oldDoDebug) ∧
      ∀ events s, Admits driverStep Orderly loaded events →
        run driverStep loaded events = some s →
        ((∀ a ∈ offsetBytes p1, a ∉ s.shared.bp.planted) →
          callTarget s.shared.bp.text p1 = debug) ∧
        ((∀ a ∈ offsetBytes p3, a ∉ s.shared.bp.planted ∧ a ∉ offsetBytes p1) →
          callTarget s.shared.bp.text p3 = int3) ∧
        (s.launched = false → unloadModule s idt oldDoInt3 oldDoDebug = some m) := by
  obtain ⟨m₁, old3, swap3⟩ : ∃ m₁ old3,
      swapHandler m (drddrGetHandler m idt 3) (int3.setWidth 32) = some (m₁, old3) :=
    ⟨_, _, swapHandler_of_site site3 _⟩
  have found1 := site1 m₁ old3 swap3
  obtain ⟨m₂, old3', old1, inited, exited⟩ := exitDrddr_restores (int3.setWidth 32)
    (debug.setWidth 32) site3 apart3 site1 apart1
  have gate := drddrGetHandler_swap (by decide : 1 ∈ [1, 3]) site3 apart3 swap3
  have swap1 : ∃ old, swapHandler m₁ (drddrGetHandler m idt 1) (debug.setWidth 32) =
      some (m₂, old) := by
    simp only [initDrddr, swap3, Option.bind_some, gate, swapHandler_of_site found1,
      Option.map_some] at inited
    have written : patchCall m₁ p1 (debug.setWidth 32 - p1.setWidth 32 - 5#32) = m₂ :=
      congrArg (·.1) (Option.some.inj inited)
    exact ⟨_, written ▸ swapHandler_of_site found1 _⟩
  obtain ⟨old, swap1⟩ := swap1
  have debugHooked : callTarget m₂ p1 = debug := callTarget_swap found1 top1 topDebug swap1
  have int3Hooked (apart : ∀ a ∈ offsetBytes p3, a ∉ offsetBytes p1) : callTarget m₂ p3 = int3 := by
    rw [← callTarget_swap site3 top3 topInt3 swap3]
    refine callTarget_congr fun a inside => ?_
    rw [swapHandler_of_site found1] at swap1
    obtain ⟨rfl, -⟩ := Prod.mk.inj (Option.some.inj swap1)
    exact patchCall_frame m₁ _ (apart a inside)
  refine ⟨loadDriver m₂ wp, old3', old1, ?_, ?_⟩
  · rw [loadModule, inited]
    rfl
  · intro events s orderly ran
    obtain ⟨overlaid, closed⟩ := (sessionsInvariant_run orderly ran).1.overlay
    have kept {p : Word} (clear : ∀ a ∈ offsetBytes p, a ∉ s.shared.bp.planted) :
        callTarget s.shared.bp.text p = callTarget m₂ p := by
      refine callTarget_congr fun a inside => ?_
      rw [overlaid, overlay_of_notMem (clear a inside)]
    refine ⟨fun clear => ?_, fun clear => ?_, fun stopped => ?_⟩
    · rw [kept clear, debugHooked]
    · rw [kept fun a inside => (clear a inside).1]
      exact int3Hooked fun a inside => (clear a inside).2
    · rw [unloadModule, (closed stopped).2]
      exact exited

/-- Two handlers with a call each, and the gates that lead to them. -/
def twoCalls : Memory := fun a =>
  if a ∈ [0xffffffff81000000, 0xffffffff81000001, 0xffffffff81000100, 0xffffffff81000101] then 0xE8
  else if a = 0xffffffff82000011 then 0x01
  else if a ∈ [0xffffffff82000017, 0xffffffff82000037] then 0x81
  else if offset 0xffffffff82000018 a < 4 ∨ offset 0xffffffff82000038 a < 4 then 0xff
  else 0x00

/-- The offset of the first call gets a breakpoint. -/
def offsetAddress : StartArgs where
  address _ := 0xffffffff81000002
  addresscnt := 1
  param := -1

/-- The steps of a session that plants a breakpoint and takes it back. -/
def plantAndStop : List DriverEvent :=
  .start offsetAddress :: List.replicate 10 (.control []) ++ .stop :: List.replicate 4 (.control [])

/-- The call is hooked, gets its breakpoint, and is restored. -/
theorem module_restores_two :
    ∃ loaded oldDoInt3 oldDoDebug s,
      loadModule twoCalls .loaded 0xffffffff82000000 0xffffffffa0000000 0xffffffffa0001000 =
        some (loaded, oldDoInt3, oldDoDebug) ∧
      run driverStep loaded plantAndStop = some s ∧
      unloadModule s 0xffffffff82000000 oldDoInt3 oldDoDebug = some twoCalls := by
  have site3 : callSite twoCalls (drddrGetHandler twoCalls 0xffffffff82000000 3) =
      some 0xffffffff81000001 := by
    decide
  have site1 (m₁ : Memory) (old : Word)
      (swap : swapHandler twoCalls (drddrGetHandler twoCalls 0xffffffff82000000 3)
        ((0xffffffffa0000000 : Word).setWidth 32) = some (m₁, old)) :
      callSite m₁ (drddrGetHandler twoCalls 0xffffffff82000000 1) = some 0xffffffff81000101 := by
    rw [swapHandler_of_site site3] at swap
    obtain ⟨rfl, -⟩ := Prod.mk.inj (Option.some.inj swap)
    decide
  obtain ⟨loaded, old3, old1, inited, runs⟩ := module_restores .loaded 0xffffffffa0000000
    0xffffffffa0001000 (by decide) (by decide) (by decide) (by decide) site3
    (by unfold GatesApart; decide) site1 (by unfold GatesApart; decide)
  obtain ⟨hooked, -, same⟩ := Option.map_eq_some_iff.mp inited
  have first : loadDriver hooked.1 .loaded = loaded := congrArg (·.1) same
  subst first
  have orderly (s : Driver) : Admits driverStep Orderly s plantAndStop := by
    refine admits_of_forall (fun e member s => ?_) s
    cases e with
    | trap | handler => simp [plantAndStop] at member
    | start args =>
      have same : args = offsetAddress := by simpa [plantAndStop] using member
      have distinct : offsetAddress.Distinct := by decide
      exact same ▸ distinct
    | stop | control => trivial
  exact ⟨_, _, _, _, inited, rfl, (runs plantAndStop _ (orderly _) rfl).2.2 rfl⟩

end Drddr
