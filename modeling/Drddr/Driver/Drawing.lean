import Drddr.Driver.Live

/-!
# The driver draw by draw

`bp_add(-1)` draws entries until one is not armed, and holds `bp_lock` all the while. Elsewhere its
locked section is one step, with draws that end it. Here every draw is a step of its own, other
threads go on between them as far as they need no lock, and the numbers are those of a given stream.
Every step here is one step there or none, so what holds in all runs of the driver holds here.
-/

namespace Drddr

open Machine

/-- A thread that calls `bp_add(-1)`. -/
inductive Drawer where
  | handler (k : Nat)
  | control
  deriving DecidableEq

/-- The step of the driver in which the thread ends its `bp_add(-1)` with these draws. -/
def Drawer.adds : Drawer → List (BitVec 32) → DriverEvent
  | .handler k, draws => .handler k (.drawn draws)
  | .control, draws => .control draws

/-- The thread that takes a step of the driver, if it is one of those that take locks. -/
def DriverEvent.thread : DriverEvent → Option Drawer
  | .handler k _ => some (.handler k)
  | .control _ => some .control
  | .trap _ | .start _ | .stop => none

/-- The handler takes `bp_lock` next. -/
def HandlerPc.takesLock : HandlerPc → Bool
  | .trapped _ | .claimed _ | .removed _ | .rearmLock | .leaving => true
  | _ => false

/-- The control thread takes `bp_lock` next. -/
def DriverPc.takesLock : DriverPc → Bool
  | .clean _ | .addLocked _ _ => true
  | _ => false

/-- The control thread comes to the locked section of a `bp_add(-1)`. -/
def DriverPc.drawsNext : DriverPc → Bool
  | .addLocked choice _ => decide (choice = -1)
  | _ => false

/-- The thread takes `bp_lock` next. -/
def Driver.takesLock (s : Driver) : Drawer → Bool
  | .handler k => (s.handlers[k]?).any (·.takesLock)
  | .control => s.control.takesLock

/-- The thread comes to the locked section of a `bp_add(-1)`, or is in it. -/
def Driver.drawsNext (s : Driver) : Drawer → Bool
  | .handler k => decide (s.handlers[k]? = some .rearmLock)
  | .control => s.control.drawsNext

/-- The driver with the loop of `bp_add(-1)` cut into its draws. -/
structure Drawing where
  driver : Driver
  /-- The thread that is in the loop, with `bp_lock` taken. -/
  holder : Option Drawer
  /-- How many numbers the loops have drawn. -/
  drawn : Nat

/-- A step of some thread. -/
inductive DrawingEvent where
  /-- A step of the driver that is not the locked section of a `bp_add(-1)`. -/
  | plain (event : DriverEvent)
  /-- A thread takes the lock for its `bp_add(-1)` and counts the armed entries. -/
  | lock (who : Drawer)
  /-- The thread in the loop calls `random32`. -/
  | draw

/-- The thread cannot take its next step as one step of the driver: it draws, or it has to wait for
the lock. -/
def Drawing.bars (s : Drawing) (who : Drawer) : Bool :=
  s.driver.drawsNext who || s.holder.isSome && s.driver.takesLock who

/-- The handler at a position takes its next step. -/
def DriverEvent.isStepOf (k : Nat) : DriverEvent → Bool
  | .handler j _ => decide (j = k)
  | _ => false

/-- The step is one of the handler at a position. -/
def Drawing.moves (s : Drawing) (k : Nat) : DrawingEvent → Bool
  | .plain event => event.isStepOf k
  | .lock who => decide (who = .handler k)
  | .draw => decide (s.holder = some (.handler k))

/-- The entry that a number comes to. -/
def Bp.drawnEntry (s : Bp) (number : BitVec 32) : Nat := (number % BitVec.ofInt 32 s.bpCount).toNat

/-- Run one step, with the numbers that the loops draw one after the other. -/
def drawingStep (random : Nat → BitVec 32) (s : Drawing) : DrawingEvent → Option Drawing
  | .plain event =>
    if event.thread.any s.bars then none
    else (driverStep s.driver event).map fun driver => { s with driver }
  | .lock who =>
    if s.holder = none ∧ s.driver.drawsNext who = true then
      if s.driver.shared.bp.bpUsageCount = s.driver.shared.bp.bpCount then
        (driverStep s.driver (who.adds [])).map fun driver => { s with driver }
      else some { s with holder := some who }
    else none
  | .draw =>
    match s.holder with
    | none => none
    | some who =>
      if s.driver.shared.bp.bpState (s.driver.shared.bp.drawnEntry (random s.drawn)) = .USING then
        some { s with drawn := s.drawn + 1 }
      else
        (driverStep s.driver (who.adds [random s.drawn])).map fun driver =>
          ⟨driver, none, s.drawn + 1⟩

/-- The module has been loaded. -/
def loadDrawing (text : Memory) (wp : WpTable) : Drawing := ⟨loadDriver text wp, none, 0⟩

/-- Everything a step can do. -/
inductive DrawingMove (random : Nat → BitVec 32) (s : Drawing) : DrawingEvent → Drawing → Prop where
  | plain (event : DriverEvent) (driver : Driver) (free : event.thread.any s.bars = false)
      (stepped : driverStep s.driver event = some driver) :
      DrawingMove random s (.plain event) { s with driver }
  /-- All entries are armed and `bp_add(-1)` returns. -/
  | refused (who : Drawer) (driver : Driver) (unlocked : s.holder = none)
      (draws : s.driver.drawsNext who = true)
      (full : s.driver.shared.bp.bpUsageCount = s.driver.shared.bp.bpCount)
      (stepped : driverStep s.driver (who.adds []) = some driver) :
      DrawingMove random s (.lock who) { s with driver }
  /-- The loop begins. -/
  | locked (who : Drawer) (unlocked : s.holder = none) (draws : s.driver.drawsNext who = true)
      (room : s.driver.shared.bp.bpUsageCount ≠ s.driver.shared.bp.bpCount) :
      DrawingMove random s (.lock who) { s with holder := some who }
  /-- The number comes to an armed entry. -/
  | again (who : Drawer) (held : s.holder = some who)
      (used : s.driver.shared.bp.bpState
        (s.driver.shared.bp.drawnEntry (random s.drawn)) = .USING) :
      DrawingMove random s .draw { s with drawn := s.drawn + 1 }
  /-- It comes to another one, and the loop ends. -/
  | ended (who : Drawer) (driver : Driver) (held : s.holder = some who)
      (free : s.driver.shared.bp.bpState
        (s.driver.shared.bp.drawnEntry (random s.drawn)) ≠ .USING)
      (stepped : driverStep s.driver (who.adds [random s.drawn]) = some driver) :
      DrawingMove random s .draw ⟨driver, none, s.drawn + 1⟩

variable {random : Nat → BitVec 32} {s t : Drawing} {event : DrawingEvent}

/-- Every step is one of the moves. -/
theorem drawingStep_move (stepped : drawingStep random s event = some t) :
    DrawingMove random s event t := by
  cases event with
  | plain event =>
    rw [drawingStep] at stepped
    by_cases barred : event.thread.any s.bars = true
    · rw [if_pos barred] at stepped
      contradiction
    · rw [if_neg barred] at stepped
      obtain ⟨driver, moved, rfl⟩ := Option.map_eq_some_iff.mp stepped
      exact .plain event driver (Bool.eq_false_of_not_eq_true barred) moved
  | lock who =>
    obtain ⟨⟨unlocked, draws⟩, stepped⟩ := Option.ite_none_right_eq_some.mp stepped
    by_cases full : s.driver.shared.bp.bpUsageCount = s.driver.shared.bp.bpCount
    · rw [if_pos full] at stepped
      obtain ⟨driver, moved, rfl⟩ := Option.map_eq_some_iff.mp stepped
      exact .refused who driver unlocked draws full moved
    · rw [if_neg full] at stepped
      cases stepped
      exact .locked who unlocked draws full
  | draw =>
    obtain ⟨driver, holder, drawn⟩ := s
    cases holder with
    | none => contradiction
    | some who =>
      simp only [drawingStep] at stepped
      by_cases used : driver.shared.bp.bpState
          (driver.shared.bp.drawnEntry (random drawn)) = .USING
      · rw [if_pos used] at stepped
        cases stepped
        exact .again who rfl used
      · rw [if_neg used] at stepped
        obtain ⟨next, moved, rfl⟩ := Option.map_eq_some_iff.mp stepped
        exact .ended who next rfl used moved

/-- A step of the driver that no thread has to wait for can be taken draw by draw. -/
theorem drawingStep_plain {step : DriverEvent} {driver : Driver}
    (free : step.thread.any s.bars = false) (stepped : driverStep s.driver step = some driver) :
    drawingStep random s (.plain step) = some { s with driver } := by
  rw [drawingStep, if_neg (by rw [free]; exact Bool.false_ne_true), stepped]
  rfl

/-- A step is a step of the driver, or leaves the driver alone. -/
theorem drawingStep_driver (stepped : drawingStep random s event = some t) :
    t.driver = s.driver ∨ ∃ step, driverStep s.driver step = some t.driver := by
  cases drawingStep_move stepped with
  | plain event driver free moved => exact .inr ⟨event, moved⟩
  | refused who driver unlocked draws full moved => exact .inr ⟨_, moved⟩
  | locked | again => exact .inl rfl
  | ended who driver held free moved => exact .inr ⟨_, moved⟩

/-- A run draw by draw is a run of the driver. -/
theorem run_driver {events : List DrawingEvent}
    (ran : run (drawingStep random) s events = some t) :
    ∃ steps, run driverStep s.driver steps = some t.driver := by
  induction events generalizing s with
  | nil =>
    obtain rfl := Option.some.inj ran
    exact ⟨[], rfl⟩
  | cons event events ih =>
    obtain ⟨u, stepped, rest⟩ := run_cons_eq_some.mp ran
    obtain ⟨steps, more⟩ := ih rest
    rcases drawingStep_driver stepped with same | ⟨step, moved⟩
    · exact ⟨steps, same ▸ more⟩
    · exact ⟨step :: steps, run_cons_eq_some.mpr ⟨u.driver, moved, more⟩⟩

/-! ## What the lock keeps -/

/-- What every step of every thread of the driver keeps. -/
structure DriverKept (s : Driver) : Prop where
  invariant : DriverInvariant s
  launched : Launched s

/-- Every step of every thread keeps the invariant of the driver. -/
theorem DriverKept.step {s t : Driver} {event : DriverEvent} (inv : DriverKept s)
    (stepped : driverStep s event = some t) : DriverKept t :=
  ⟨inv.invariant.step stepped, inv.launched.step stepped⟩

/-- What every step keeps when the draws are steps of their own. -/
structure DrawingKept (s : Drawing) : Prop where
  kept : DriverKept s.driver
  /-- The thread in the loop stays there, and some entry is not armed. -/
  holding : ∀ who, s.holder = some who → s.driver.drawsNext who = true ∧
    s.driver.shared.bp.bpUsageCount ≠ s.driver.shared.bp.bpCount

/-- A handler that takes no lock leaves the breakpoints alone. -/
theorem handlerStep_bp {g g' : Shared} {pc pc' : HandlerPc} {input : HandlerInput}
    (unlocked : pc.takesLock = false) (stepped : handlerStep g pc input = some (g', pc')) :
    g'.bp = g.bp := by
  cases handlerStep_move stepped with
  | claim | pass | remove | miss | count | refuse | readd | leave => exact Bool.noConfusion unlocked
  | decode | skip | watch | full | add | unwatch | shut | lock => rfl

/-- A handler that comes out of the locked section of its `bp_add(-1)` goes on to its end. -/
theorem handlerStep_rearmLock {g g' : Shared} {pc' : HandlerPc} {input : HandlerInput}
    (stepped : handlerStep g .rearmLock input = some (g', pc')) : pc' = .leaving := by
  cases handlerStep_move stepped with
  | readd => rfl

/-- The control thread changes the breakpoints under the lock, or in the closed phase. -/
theorem controlStep_bp {s : Driver} {g : Shared} {running : Bool} {pc : DriverPc}
    {draws : List (BitVec 32)} (unlocked : s.control.takesLock = false) (apart : s.closed = false)
    (moved : controlStep s.shared s.running draws s.control = some (g, running, pc)) :
    g.bp = s.shared.bp := by
  obtain ⟨shared, handlers, wasRunning, control⟩ := s
  cases controlStep_move moved with
  | clean | add => exact Bool.noConfusion unlocked
  | initCount | initAddr | initDone | initState | initStopping => exact Bool.noConfusion apart
  | drained | wait | wpClean | stopped | restart | startClean | added | shut | lock | launch => rfl

/-- While a thread is in the loop, the driver is not in its closed phase. -/
theorem DriverKept.apart {s : Driver} (inv : DriverKept s) {who : Drawer}
    (draws : s.drawsNext who = true) : s.closed = false := by
  cases who with
  | handler k =>
    refine Bool.eq_false_iff.mpr fun closed => ?_
    have found : s.handlers[k]? = some .rearmLock := of_decide_eq_true draws
    have still := (inv.invariant.quiesced closed).still _ (List.mem_of_getElem? found)
    exact Bool.noConfusion still
  | control =>
    obtain ⟨shared, handlers, running, control⟩ := s
    cases control with
    | addLocked => rfl
    | _ => exact Bool.noConfusion draws

/-- A step that needs no lock leaves the thread in the loop where it is, and the table. -/
theorem DriverKept.undisturbed {s t : Driver} {event : DriverEvent} (inv : DriverKept s)
    {who : Drawer} (draws : s.drawsNext who = true)
    (free : ∀ other, event.thread = some other → s.drawsNext other = false ∧
      s.takesLock other = false)
    (stepped : driverStep s event = some t) :
    t.drawsNext who = true ∧ t.shared.bp = s.shared.bp := by
  have apart := inv.apart draws
  cases event with
  | trap ip =>
    cases Option.some.inj stepped
    refine ⟨?_, rfl⟩
    cases who with
    | handler k =>
      have found : s.handlers[k]? = some .rearmLock := of_decide_eq_true draws
      exact decide_eq_true (getElem?_started.mpr (.inl found))
    | control => exact draws
  | start | stop =>
    obtain ⟨shared, handlers, running, control⟩ := s
    cases control with
    | idle =>
      cases Option.some.inj stepped
      refine ⟨?_, rfl⟩
      cases who with
      | handler k => exact draws
      | control => exact Bool.noConfusion draws
    | _ => contradiction
  | handler j input =>
    obtain ⟨⟨g, handlers⟩, moved, rfl⟩ := Option.map_eq_some_iff.mp stepped
    obtain ⟨pc, pc', found, rfl, act⟩ := poolStep_set moved
    obtain ⟨other, unlocked⟩ := free (.handler j) rfl
    have plain : pc.takesLock = false := by
      rw [Driver.takesLock, found] at unlocked
      exact unlocked
    refine ⟨?_, handlerStep_bp plain act⟩
    cases who with
    | handler k =>
      have apart : j ≠ k := by
        rintro rfl
        exact Bool.noConfusion (other.symm.trans draws)
      show decide ((s.handlers.set j pc')[k]? = some .rearmLock) = true
      rw [List.getElem?_set_ne apart]
      exact draws
    | control => exact draws
  | control numbers =>
    obtain ⟨⟨g, running, pc⟩, moved, rfl⟩ := Option.map_eq_some_iff.mp stepped
    obtain ⟨other, unlocked⟩ := free .control rfl
    refine ⟨?_, controlStep_bp unlocked apart moved⟩
    cases who with
    | handler k => exact draws
    | control => exact Bool.noConfusion (other.symm.trans draws)

/-- Whoever is not barred needs no lock that is taken. -/
theorem free_of_not_bars {event : DriverEvent} {who : Drawer} (held : s.holder = some who)
    (free : event.thread.any s.bars = false) (other : Drawer)
    (thread : event.thread = some other) :
    s.driver.drawsNext other = false ∧ s.driver.takesLock other = false := by
  rw [thread] at free
  have free : s.bars other = false := free
  rw [Drawing.bars, held, Option.isSome_some, Bool.true_and] at free
  exact Bool.or_eq_false_iff.mp free

/-- Every step keeps the invariant of the driver that draws. -/
theorem DrawingKept.step (inv : DrawingKept s) (stepped : drawingStep random s event = some t) :
    DrawingKept t := by
  cases drawingStep_move stepped with
  | plain event driver free moved =>
    refine ⟨inv.kept.step moved, fun who held => ?_⟩
    obtain ⟨draws, room⟩ := inv.holding who held
    obtain ⟨still, same⟩ := inv.kept.undisturbed draws (free_of_not_bars held free) moved
    refine ⟨still, ?_⟩
    show driver.shared.bp.bpUsageCount ≠ driver.shared.bp.bpCount
    rw [same]
    exact room
  | refused who driver unlocked draws full moved =>
    refine ⟨inv.kept.step moved, fun other held => ?_⟩
    exact absurd (unlocked.symm.trans held) (by simp)
  | locked who unlocked draws room =>
    refine ⟨inv.kept, fun other held => ?_⟩
    obtain rfl := Option.some.inj held
    exact ⟨draws, room⟩
  | again who held used => exact ⟨inv.kept, inv.holding⟩
  | ended who driver held free moved =>
    exact ⟨inv.kept.step moved, fun other held => absurd held (by simp)⟩

/-- The invariant of the driver that draws holds in every state of every run. -/
theorem DrawingKept.ofReached {text : Memory} {wp : WpTable} {history : List DrawingEvent}
    (reached : run (drawingStep random) (loadDrawing text wp) history = some s) :
    DrawingKept s := by
  refine run_invariant (fun _ _ _ => DrawingKept.step)
    ⟨⟨driverInvariant_load text wp, launched_load text wp⟩, fun who held => ?_⟩ reached
  exact absurd held (by simp [loadDrawing])

/-! ## The draws -/

/-- Numbers that come to every one of so many entries again and again. -/
def FairDraws (n : Nat) (random : Nat → BitVec 32) : Prop :=
  ∀ i < n, ∀ k, ∃ later, k ≤ later ∧ (random later).toNat % n = i

/-- The number of the entry that is drawn is the number modulo the count. -/
theorem drawnEntry_eq {bp : Bp} (count : 0 ≤ bp.bpCount) (int : bp.bpCount < 2 ^ 31)
    (number : BitVec 32) : bp.drawnEntry number = number.toNat % bp.bpCount.toNat := by
  have exact32 : (bp.bpCount % ((2 ^ 32 : Nat) : Int)).toNat = bp.bpCount.toNat := by omega
  rw [Bp.drawnEntry, BitVec.toNat_umod, BitVec.toNat_ofInt, exact32]

/-- The loop ends with the first number that comes to an entry that is not armed. -/
theorem bpAddLocked_drawn {bp : Bp} (room : bp.bpUsageCount ≠ bp.bpCount) {number : BitVec 32}
    (free : bp.bpState (bp.drawnEntry number) ≠ .USING) :
    bp.bpAddLocked (-1) [number] = some (true, bp.arm (bp.drawnEntry number), []) := by
  rw [Bp.bpAddLocked, if_pos rfl, if_neg room, Bp.randomPick]
  simp only [Bp.drawnEntry] at free
  simp only [if_neg free]
  rfl

/-- A thread at the locked section of its `bp_add(-1)` can take a step with what is drawn. -/
theorem exists_adds {s : Driver} {who : Drawer} (draws : s.drawsNext who = true)
    {numbers : List (BitVec 32)} {added : Bool × Bp × List (BitVec 32)}
    (adds : s.shared.bp.bpAddLocked (-1) numbers = some added) :
    ∃ t, driverStep s (who.adds numbers) = some t := by
  cases who with
  | handler k =>
    have found : s.handlers[k]? = some .rearmLock := of_decide_eq_true draws
    exact ⟨_, by
      rw [Drawer.adds, driverStep, poolStep, found, Option.bind_some, handlerStep, adds]
      rfl⟩
  | control =>
    obtain ⟨shared, handlers, running, control⟩ := s
    cases control with
    | addLocked choice choices =>
      obtain rfl : choice = -1 := of_decide_eq_true draws
      have adds : shared.bp.bpAddLocked (-1) numbers = some added := adds
      exact ⟨_, by
        rw [Drawer.adds, driverStep, controlStep, adds]
        rfl⟩
    | _ => exact Bool.noConfusion draws

/-- The loop ends with a number that comes to an entry that is not armed. -/
theorem draw_free {who : Drawer} (held : s.holder = some who)
    (draws : s.driver.drawsNext who = true)
    (room : s.driver.shared.bp.bpUsageCount ≠ s.driver.shared.bp.bpCount)
    (free : s.driver.shared.bp.bpState
      (s.driver.shared.bp.drawnEntry (random s.drawn)) ≠ .USING) :
    ∃ driver, driverStep s.driver (who.adds [random s.drawn]) = some driver ∧
      drawingStep random s .draw = some ⟨driver, none, s.drawn + 1⟩ := by
  obtain ⟨driver, moved⟩ := exists_adds draws (bpAddLocked_drawn room free)
  refine ⟨driver, moved, ?_⟩
  simp only [drawingStep, held]
  rw [if_neg free, moved]
  rfl

/-- The loop goes on with any other number. -/
theorem draw_used {who : Drawer} (held : s.holder = some who)
    (used : s.driver.shared.bp.bpState
      (s.driver.shared.bp.drawnEntry (random s.drawn)) = .USING) :
    drawingStep random s .draw = some { s with drawn := s.drawn + 1 } := by
  simp only [drawingStep, held]
  rw [if_pos used]

/-- If a number that comes to an entry that is not armed is ever drawn, the loop ends with the first
of them. -/
theorem exists_ended {who : Drawer} (held : s.holder = some who)
    (draws : s.driver.drawsNext who = true)
    (room : s.driver.shared.bp.bpUsageCount ≠ s.driver.shared.bp.bpCount) {later : Nat}
    (after : s.drawn ≤ later)
    (free : s.driver.shared.bp.bpState
      (s.driver.shared.bp.drawnEntry (random later)) ≠ .USING) :
    ∃ d driver drawn, run (drawingStep random) s (List.replicate d .draw) =
        some ⟨driver, none, drawn⟩ ∧
      Admits (drawingStep random) (fun u _ => u.holder = some who) s (List.replicate d .draw) ∧
      ∃ numbers, driverStep s.driver (who.adds numbers) = some driver := by
  obtain ⟨wait, rfl⟩ := Nat.exists_eq_add_of_le after
  clear after
  induction wait generalizing s with
  | zero =>
    obtain ⟨driver, moved, last⟩ := draw_free held draws room free
    exact ⟨1, driver, _, run_cons_eq_some.mpr ⟨_, last, rfl⟩, admits_cons last held trivial, _,
      moved⟩
  | succ wait ih =>
    by_cases used : s.driver.shared.bp.bpState
        (s.driver.shared.bp.drawnEntry (random s.drawn)) = .USING
    · have stepped := draw_used held used
      have longer : s.drawn + (wait + 1) = s.drawn + 1 + wait := by omega
      rw [longer] at free
      obtain ⟨d, driver, drawn, ran, always, moved⟩ :=
        @ih { s with drawn := s.drawn + 1 } held draws room free
      exact ⟨d + 1, driver, drawn, run_cons_eq_some.mpr ⟨_, stepped, ran⟩,
        admits_cons stepped held always, moved⟩
    · obtain ⟨driver, moved, last⟩ := draw_free held draws room used
      exact ⟨1, driver, _, run_cons_eq_some.mpr ⟨_, last, rfl⟩, admits_cons last held trivial, _,
        moved⟩

/-- Fair numbers come to an entry that is not armed. -/
theorem DrawingKept.exists_free (inv : DrawingKept s) {who : Drawer} (held : s.holder = some who)
    (int : s.driver.shared.bp.bpCount < 2 ^ 31)
    (fair : FairDraws s.driver.shared.bp.bpCount.toNat random) (k : Nat) :
    ∃ later, k ≤ later ∧ s.driver.shared.bp.bpState
      (s.driver.shared.bp.drawnEntry (random later)) ≠ .USING := by
  have count := inv.kept.launched.count
  have most := bpUsageCount_le count
  have room := (inv.holding who held).2
  obtain ⟨i, below, free⟩ := @Bp.exists_free s.driver.shared.bp (by omega)
  obtain ⟨later, after, comes⟩ := fair i (by omega) k
  refine ⟨later, after, ?_⟩
  rw [drawnEntry_eq count int, comes]
  exact free

end Drddr
