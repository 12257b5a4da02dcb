import Drddr.Machine.Pool
import Drddr.Machine.Run
import Drddr.Wp.Table

/-!
# Watchpoint identifiers

Any number of processors add watchpoints, remove them again by the identifier they were
given, and remove them from the debug handler by slot. `wp_add` stores the sequence number
of an installation while it holds the lock, but reads the number it returns after the unlock.
Each installation is followed here by its serial number, which the program does not keep.
A debug trap taken inside `wp_add` counts as a processor of its own: it shares nothing with
the call it interrupts but the table.
-/

namespace Drddr

open Machine

/-- Where a processor is. -/
inductive CpuPc where
  | idle
  /-- Inside `wp_add`, with the serial of the installation it made, if it made one yet. -/
  | adding (pc : WpAddPc) (mine : Nat)
  /-- A valid identifier was returned by `wp_add` or `wp_query`; `wp_remove` is next. -/
  | removing (id : WatchpointId)
  deriving DecidableEq

/-- What a processor does next, where it has a choice. -/
inductive CpuInput where
  /-- `int3_real_work` calls `wp_add`. -/
  | call (req : WpRequest)
  /-- `debug_drddr` calls `wp_query` with this status register. -/
  | debug (dr6 : Word)
  | tick

/-- An identifier that `wp_add` returned for an installation. -/
structure Returned where
  slot : Fin 4
  /-- The serial of the installation. -/
  serial : Nat
  /-- The number of installations when the counter was read. -/
  total : Nat
  id : WatchpointId

/-- The table, with the installations followed by serial number. -/
structure IdTable where
  wp : WpTable
  /-- The number of installations. -/
  installs : Nat
  /-- The serial of the last installation in each slot. -/
  occupant : Fin 4 → Nat
  /-- Every identifier returned for an installation. -/
  returned : List Returned

/-- What one step of `wp_add` means for the installations. -/
def IdTable.follow (g : IdTable) (wp : WpTable) (mine : Nat) :
    WpAddPc → WpAddPc → IdTable × Nat
  | .lock _, .number slot =>
    ({ g with wp, installs := g.installs + 1,
              occupant := Function.update g.occupant slot (g.installs + 1) }, g.installs + 1)
  | .number slot, .done id =>
    ({ g with wp, returned := ⟨slot, mine, g.installs, id⟩ :: g.returned }, mine)
  | _, _ => ({ g with wp }, mine)

/-- One step of a processor. -/
def cpuStep (g : IdTable) : CpuPc → CpuInput → Option (IdTable × CpuPc)
  | .idle, .call req => some (g, .adding (.test 0 req) 0)
  | .idle, .debug dr6 =>
    some (g, if (wpQuery dr6).isValid then .removing (wpQuery dr6) else .idle)
  | .adding (.done id) _, .tick => some (g, if id.isValid then .removing id else .idle)
  | .adding pc mine, .tick =>
    (wpAddStep g.wp pc).map fun (wp, next) =>
      ((g.follow wp mine pc next).1, .adding next (g.follow wp mine pc next).2)
  | .removing id, .tick => some ({ g with wp := g.wp.wpRemove id }, .idle)
  | _, _ => none

/-- The processors and the table they share. -/
structure IdState where
  shared : IdTable
  cpus : List CpuPc

/-- One processor takes a step. -/
def idStep (s : IdState) (event : Nat × CpuInput) : Option IdState :=
  (poolStep cpuStep s.shared s.cpus event.1 event.2).map fun (shared, cpus) => ⟨shared, cpus⟩

/-- A number of idle processors after `wp_init`. -/
def openIds (t : WpTable) (cpus : Nat) : IdState where
  shared := { wp := t.wpInit, installs := 0, occupant := fun _ => 0, returned := [] }
  cpus := List.replicate cpus .idle

/-- The processor is about to take the lock in `wp_add`. -/
def CpuPc.locking : CpuPc → Bool
  | .adding (.lock _) _ => true
  | _ => false

/-- The processor has installed and not yet read the counter. -/
def CpuPc.numbering : CpuPc → Bool
  | .adding (.number _) _ => true
  | _ => false

/-- An installation is made only while no other processor has yet to read the counter for
its own. -/
def Undisturbed (s : IdState) (event : Nat × CpuInput) : Prop :=
  (s.cpus[event.1]?).any CpuPc.locking = true → s.shared.wp.freeSlot.isSome = true →
    ∀ pc ∈ s.cpus, pc.numbering = false

instance (s : IdState) (event : Nat × CpuInput) : Decidable (Undisturbed s event) :=
  inferInstanceAs (Decidable (_ → _ → _))

/-- The identifier names the slot and the sequence number of its installation. -/
def Returned.Right (r : Returned) : Prop := r.id.dr = r.slot ∧ r.id.num.toInt = r.serial

/-- Removing by the identifier frees the slot if the installation still occupies it, and
frees no other installation. -/
def IdTable.RemovesOwn (g : IdTable) (r : Returned) : Prop :=
  (g.wp.wpUsage r.slot = true → g.occupant r.slot = r.serial →
    (g.wp.wpRemove r.id).wpUsage r.slot = false) ∧
  ∀ j, g.wp.wpUsage j = true → (g.wp.wpRemove r.id).wpUsage j = false →
    j = r.slot ∧ g.occupant j = r.serial

/-- What holds of the table in every state: the counter counts, a slot in use has the number
of its installation, and an identifier has the number of installations at the read. -/
structure IdTable.Numbered (g : IdTable) : Prop where
  count : g.wp.wpTotalCount = BitVec.ofNat 32 g.installs
  occupied : ∀ i, g.wp.wpUsage i = true → 1 ≤ g.occupant i ∧ g.occupant i ≤ g.installs ∧
    g.wp.wpNum i = BitVec.ofNat 32 (g.occupant i)
  returned : ∀ r ∈ g.returned, r.id = ⟨r.slot, BitVec.ofNat 30 r.total⟩ ∧
    1 ≤ r.serial ∧ r.serial ≤ r.total ∧ r.total ≤ g.installs

/-- Everything a processor step can do. -/
inductive CpuEffect (g : IdTable) : CpuPc → IdTable → CpuPc → Prop where
  /-- The table is untouched. -/
  | quiet {pc pc'} (pending : pc'.numbering = false) : CpuEffect g pc g pc'
  /-- The locked section of `wp_add` found a slot. -/
  | installed (req : WpRequest) (mine : Nat) (slot : Fin 4) (free : g.wp.freeSlot = some slot) :
      CpuEffect g (.adding (.lock req) mine)
        { g with wp := g.wp.install slot req, installs := g.installs + 1,
                 occupant := Function.update g.occupant slot (g.installs + 1) }
        (.adding (.number slot) (g.installs + 1))
  /-- `wp_add` read the counter. -/
  | numbered (slot : Fin 4) (mine : Nat) :
      CpuEffect g (.adding (.number slot) mine)
        { g with returned :=
          ⟨slot, mine, g.installs, ⟨slot, g.wp.wpTotalCount.setWidth 30⟩⟩ :: g.returned }
        (.adding (.done ⟨slot, g.wp.wpTotalCount.setWidth 30⟩) mine)
  /-- `wp_remove`. -/
  | removed (id : WatchpointId) :
      CpuEffect g (.removing id) { g with wp := g.wp.wpRemove id } .idle

/-- A step that leads to a known state has the effect of that. -/
theorem CpuEffect.of_eq {g g' t : IdTable} {pc pc' next : CpuPc}
    (stepped : some (t, next) = some (g', pc')) (effect : CpuEffect g pc t next) :
    CpuEffect g pc g' pc' := by
  cases stepped
  exact effect

/-- Every processor step has one of the listed effects. -/
theorem cpuStep_effect {g g' : IdTable} {pc pc' : CpuPc} {input : CpuInput}
    (stepped : cpuStep g pc input = some (g', pc')) : CpuEffect g pc g' pc' := by
  cases pc with
  | idle =>
    cases input with
    | call req => exact .of_eq stepped (.quiet rfl)
    | debug dr6 => exact .of_eq stepped (.quiet (by split <;> rfl))
    | tick => contradiction
  | adding pc mine =>
    cases input with
    | call req => cases pc <;> contradiction
    | debug dr6 => cases pc <;> contradiction
    | tick =>
      cases pc with
      | test k req =>
        simp only [cpuStep, wpAddStep] at stepped
        split at stepped
        · exact .of_eq stepped (.quiet rfl)
        · split at stepped
          · exact .of_eq stepped (.quiet rfl)
          · exact .of_eq stepped (.quiet rfl)
      | lock req =>
        cases free : g.wp.freeSlot with
        | some slot =>
          simp only [cpuStep, wpAddStep, free] at stepped
          exact .of_eq stepped (.installed req mine slot free)
        | none =>
          simp only [cpuStep, wpAddStep, free] at stepped
          exact .of_eq stepped (.quiet rfl)
      | number slot => exact .of_eq stepped (.numbered slot mine)
      | done id => exact .of_eq stepped (.quiet (by split <;> rfl))
  | removing id =>
    cases input with
    | tick => exact .of_eq stepped (.removed id)
    | call req => contradiction
    | debug dr6 => contradiction

/-! ## The invariant of every run -/

/-- A processor that has yet to read the counter has a serial given out before. -/
def CpuPc.Given (installs : Nat) : CpuPc → Prop
  | .adding (.number _) mine => 1 ≤ mine ∧ mine ≤ installs
  | _ => True

/-- Nothing has been installed since the serial of the processor was given out. -/
def CpuPc.Latest (installs : Nat) : CpuPc → Prop
  | .adding (.number _) mine => mine = installs
  | _ => True

/-- A processor that is not between its unlock and its read owes nothing. -/
theorem CpuPc.given_of_not_numbering {pc : CpuPc} (idle : pc.numbering = false) (n : Nat) :
    pc.Given n ∧ pc.Latest n := by
  cases pc with
  | adding pc mine => cases pc <;> first | contradiction | exact ⟨trivial, trivial⟩
  | _ => exact ⟨trivial, trivial⟩

/-- A serial given out stays given out. -/
theorem CpuPc.Given.mono {pc : CpuPc} {m n : Nat} (given : pc.Given m) (le : m ≤ n) :
    pc.Given n := by
  cases pc with
  | adding pc mine =>
    cases pc with
    | number slot => exact ⟨given.1, given.2.trans le⟩
    | _ => trivial
  | _ => trivial

/-- The next number is the number of the next installation. -/
theorem next_number {g : IdTable} (count : g.wp.wpTotalCount = BitVec.ofNat 32 g.installs) :
    g.wp.wpTotalCount + 1 = BitVec.ofNat 32 (g.installs + 1) := by
  rw [count]
  exact (BitVec.ofNat_add ..).symm

/-- One step keeps the table numbered and the processor's serial given out, and no
installation is forgotten. -/
theorem CpuEffect.numbered_step {g g' : IdTable} {pc pc' : CpuPc} (effect : CpuEffect g pc g' pc')
    (numbered : g.Numbered) (given : pc.Given g.installs) :
    g'.Numbered ∧ pc'.Given g'.installs ∧ g.installs ≤ g'.installs := by
  cases effect with
  | quiet pending => exact ⟨numbered, (CpuPc.given_of_not_numbering pending _).1, le_rfl⟩
  | installed req mine slot free =>
    have next := next_number numbered.count
    refine ⟨⟨next, ?_, ?_⟩, ⟨by omega, le_rfl⟩, by simp⟩
    · intro i used
      by_cases same : i = slot
      · subst same
        simpa [WpTable.install] using next
      · simp only [WpTable.install, Function.update_of_ne same] at used ⊢
        have old := numbered.occupied i used
        exact ⟨old.1, by omega, old.2.2⟩
    · intro r member
      have old := numbered.returned r member
      exact ⟨old.1, old.2.1, old.2.2.1, by simp only; omega⟩
  | numbered slot mine =>
    refine ⟨⟨numbered.count, numbered.occupied, ?_⟩, trivial, le_rfl⟩
    intro r member
    cases List.mem_cons.mp member with
    | inl new =>
      subst new
      refine ⟨?_, given.1, given.2, le_rfl⟩
      rw [numbered.count, BitVec.setWidth_ofNat_of_le (by omega)]
    | inr old => exact numbered.returned r old
  | removed id =>
    refine ⟨?_, trivial, le_rfl⟩
    cases WpTable.wpRemove_cases (t := g.wp) id with
    | inl released =>
      rw [released]
      refine ⟨numbered.count, fun i used => numbered.occupied i ?_, numbered.returned⟩
      by_cases same : i = id.dr
      · subst same
        simp [WpTable.release] at used
      · simpa [WpTable.release, Function.update_of_ne same] using used
    | inr unchanged =>
      rw [unchanged]
      exact numbered

/-- The invariant of every run. -/
def IdState.Sound (s : IdState) : Prop :=
  s.shared.Numbered ∧ ∀ pc ∈ s.cpus, pc.Given s.shared.installs

/-- Every step keeps the invariant. -/
theorem IdState.Sound.step {s t : IdState} {event : Nat × CpuInput} (sound : s.Sound)
    (stepped : idStep s event = some t) : t.Sound := by
  obtain ⟨⟨g, cpus⟩, moved, rfl⟩ := Option.map_eq_some_iff.mp stepped
  obtain ⟨before, pc, pc', after, -, split, rfl, act⟩ := poolStep_cases moved
  obtain ⟨numbered, given⟩ := sound
  rw [split] at given
  have step := (cpuStep_effect act).numbered_step numbered (given pc (by simp))
  have kept : ∀ other ∈ before ++ pc :: after, other.Given g.installs :=
    fun other member => (given other member).mono step.2.2
  exact ⟨step.1, forall_replaced kept step.2.1⟩

/-- The invariant holds when the table is opened. -/
theorem sound_openIds (t : WpTable) (cpus : Nat) : (openIds t cpus).Sound := by
  refine ⟨⟨rfl, fun i used => ?_, fun r member => ?_⟩, fun pc member => ?_⟩
  · exact absurd used (by simp [openIds, WpTable.wpInit])
  · exact absurd member (by simp [openIds])
  · rw [List.eq_of_mem_replicate member]
    trivial

/-! ## Undisturbed runs -/

/-- Nothing has been installed since any serial was given out, and every identifier was
returned before the next installation. -/
def IdState.Prompt (s : IdState) : Prop :=
  (∀ pc ∈ s.cpus, pc.Latest s.shared.installs) ∧ ∀ r ∈ s.shared.returned, r.total = r.serial

/-- An undisturbed step keeps every serial the latest one. -/
theorem IdState.Prompt.step {s t : IdState} {event : Nat × CpuInput} (prompt : s.Prompt)
    (undisturbed : Undisturbed s event) (stepped : idStep s event = some t) : t.Prompt := by
  obtain ⟨⟨g, cpus⟩, moved, rfl⟩ := Option.map_eq_some_iff.mp stepped
  obtain ⟨before, pc, pc', after, found, split, rfl, act⟩ := poolStep_cases moved
  obtain ⟨latest, returned⟩ := prompt
  have others : ∀ other ∈ before ++ pc' :: after, other = pc' ∨ other ∈ s.cpus := by
    intro other member
    rw [split]
    exact mem_replaced member
  have mine : pc.Latest s.shared.installs := latest pc (by rw [split]; simp)
  cases cpuStep_effect act with
  | quiet pending =>
    refine ⟨fun other member => ?_, returned⟩
    cases others other member with
    | inl same =>
      subst same
      exact (CpuPc.given_of_not_numbering pending _).2
    | inr old => exact latest other old
  | installed req mine slot free =>
    -- Nobody is between its unlock and its read, so nobody's serial grows stale.
    have settled := undisturbed (by rw [found]; rfl) (by rw [free]; rfl)
    refine ⟨fun other member => ?_, returned⟩
    cases others other member with
    | inl same =>
      subst same
      exact rfl
    | inr old => exact (CpuPc.given_of_not_numbering (settled other old) _).2
  | numbered slot serial =>
    refine ⟨fun other member => ?_, fun r member => ?_⟩
    · cases others other member with
      | inl same =>
      subst same
      exact trivial
      | inr old => exact latest other old
    · cases List.mem_cons.mp member with
      | inl new =>
        subst new
        exact mine.symm
      | inr old => exact returned r old
  | removed id =>
    refine ⟨fun other member => ?_, returned⟩
    cases others other member with
    | inl same =>
      subst same
      exact trivial
    | inr old => exact latest other old

/-- Nothing is pending when the table is opened. -/
theorem prompt_openIds (t : WpTable) (cpus : Nat) : (openIds t cpus).Prompt := by
  refine ⟨fun pc member => ?_, fun r member => ?_⟩
  · rw [List.eq_of_mem_replicate member]
    trivial
  · exact absurd member (by simp [openIds])

/-! ## What an identifier names -/

/-- Below `2 ^ 29`, a number survives thirty signed bits or more. -/
theorem toInt_number {w n : Nat} (wide : 30 ≤ w) (few : n < 2 ^ 29) :
    (BitVec.ofNat w n).toInt = n := by
  have room : 2 ^ 30 ≤ 2 ^ w := Nat.pow_le_pow_right (by decide) wide
  have small : (BitVec.ofNat w n).toNat = n := by
    rw [BitVec.toNat_ofNat, Nat.mod_eq_of_lt (by omega)]
  rw [BitVec.toInt_eq_toNat_of_lt (by omega), small]

/-- An identifier is right exactly when the counter had not moved on when it was read. -/
theorem IdTable.Numbered.right_iff {g : IdTable} (numbered : g.Numbered)
    (few : g.installs < 2 ^ 29) {r : Returned} (member : r ∈ g.returned) :
    r.Right ↔ r.total = r.serial := by
  obtain ⟨id, -, -, total⟩ := numbered.returned r member
  have number : r.id.num.toInt = r.total := by
    rw [id]
    exact toInt_number le_rfl (by omega)
  have slot : r.id.dr = r.slot := by rw [id]
  unfold Returned.Right
  rw [number, slot]
  simp

/-- A right identifier removes its own installation, if any. -/
theorem IdTable.Numbered.removesOwn {g : IdTable} (numbered : g.Numbered)
    (few : g.installs < 2 ^ 29) {r : Returned} (member : r ∈ g.returned)
    (right : r.total = r.serial) : g.RemovesOwn r := by
  obtain ⟨id, positive, -, total⟩ := numbered.returned r member
  have extended : r.id.num.signExtend 32 = BitVec.ofNat 32 r.serial := by
    apply BitVec.eq_of_toInt_eq
    rw [BitVec.toInt_signExtend_of_le (by omega), id, toInt_number le_rfl (by omega),
      toInt_number (by omega) (by omega), right]
  have notAny : r.id.num ≠ 0 := by
    intro zero
    have number : r.id.num.toInt = r.total := by
      rw [id]
      exact toInt_number le_rfl (by omega)
    rw [zero] at number
    simp at number
    omega
  have slot : r.id.dr = r.slot := by rw [id]
  constructor
  · intro used same
    have num := (numbered.occupied r.slot used).2.2
    have matched : r.id.num.signExtend 32 = g.wp.wpNum r.id.dr := by
      rw [extended, slot, num, same]
    rw [WpTable.wpRemove, if_pos (.inr matched), slot]
    simp [WpTable.release]
  · intro j used freed
    by_cases matched : r.id.num = 0 ∨ r.id.num.signExtend 32 = g.wp.wpNum r.id.dr
    · rw [WpTable.wpRemove, if_pos matched] at freed
      have here : j = r.id.dr := by
        by_contra elsewhere
        simp [WpTable.release, Function.update_of_ne elsewhere, used] at freed
      have occupied := numbered.occupied j used
      have num := matched.resolve_left notAny
      rw [← here, occupied.2.2, extended] at num
      have same := congrArg BitVec.toNat num
      simp only [BitVec.toNat_ofNat] at same
      exact ⟨here.trans slot, by omega⟩
    · rw [WpTable.wpRemove, if_neg matched, used] at freed
      contradiction

/-- After every run with fewer than `2 ^ 29` installations, an identifier that `wp_add`
returned names its own installation exactly when no other was made before it read the
counter. In a run in which none ever is, every identifier returned names and removes its own
installation and no other. -/
theorem wpAdd_id_names_own {t : WpTable} {cpus : Nat} {events : List (Nat × CpuInput)}
    {s : IdState} (ran : run idStep (openIds t cpus) events = some s)
    (few : s.shared.installs < 2 ^ 29) :
    (∀ r ∈ s.shared.returned, r.Right ↔ r.total = r.serial) ∧
      (Admits idStep Undisturbed (openIds t cpus) events →
        ∀ r ∈ s.shared.returned, r.Right ∧ s.shared.RemovesOwn r) := by
  have sound : s.Sound := run_invariant (fun _ _ _ => IdState.Sound.step) (sound_openIds t cpus) ran
  refine ⟨fun r member => sound.1.right_iff few member, fun undisturbed r member => ?_⟩
  have prompt : s.Prompt :=
    run_admitted (fun _ _ _ => IdState.Prompt.step) (prompt_openIds t cpus) undisturbed ran
  have right := prompt.2 r member
  exact ⟨(sound.1.right_iff few member).mpr right, sound.1.removesOwn few member right⟩

/-- A request for a byte. -/
def byteRequest (addr : Word) : WpRequest where
  dataAddr := addr
  dataLength := 8
  isWrite := false
  regs := default
  cpuid := 0
  trace := []

/-- Two processors add a watchpoint each, one after the other; the debug handler frees the
first slot and the first processor adds again. -/
def inTurn : List (Nat × CpuInput) :=
  [(0, .call (byteRequest 0x1000)), (0, .tick), (0, .tick), (0, .tick),
    (1, .call (byteRequest 0x2000)), (1, .tick), (1, .tick), (1, .tick), (1, .tick),
    (2, .debug 1), (2, .tick), (0, .tick), (0, .tick),
    (0, .call (byteRequest 0x3000)), (0, .tick), (0, .tick), (0, .tick)]

/-- The second processor installs between the first one's unlock and its read. -/
def overtaken : List (Nat × CpuInput) :=
  [(0, .call (byteRequest 0x1000)), (0, .tick), (0, .tick),
    (1, .call (byteRequest 0x2000)), (1, .tick), (1, .tick), (1, .tick), (0, .tick)]

/-- Additions in turn return identifiers that name their installations. -/
theorem wpAdd_id_names_own_in_turn :
    ∃ s, run idStep (openIds WpTable.loaded 3) inTurn = some s ∧
      s.shared.returned.map (fun r => (r.slot, r.serial)) = [(0, 3), (1, 2), (0, 1)] ∧
      ∀ r ∈ s.shared.returned, r.Right ∧ s.shared.RemovesOwn r := by
  refine ⟨_, rfl, by decide, ?_⟩
  have undisturbed : Admits idStep Undisturbed (openIds WpTable.loaded 3) inTurn := by decide
  have names := @wpAdd_id_names_own WpTable.loaded 3 inTurn _ rfl (by decide)
  exact names.2 undisturbed

/-- An addition that is overtaken returns the other installation's number, with which
`wp_remove` leaves its own slot in use. -/
theorem wpAdd_id_overtaken :
    ∃ s r, run idStep (openIds WpTable.loaded 2) overtaken = some s ∧
      s.shared.returned = [r] ∧ s.shared.installs = 2 ∧ r.slot = 0 ∧ r.serial = 1 ∧
      r.id = ⟨0, 2⟩ ∧ ¬r.Right ∧ ¬s.shared.RemovesOwn r := by
  refine ⟨_, _, rfl, rfl, rfl, rfl, rfl, rfl, ?_, ?_⟩
  · intro right
    exact absurd right.2 (by decide)
  · intro removes
    exact absurd (removes.1 (by decide) (by decide)) (by decide)

end Drddr
