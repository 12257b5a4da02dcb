import Drddr.Driver.Drawing
import Mathlib.Algebra.Order.BigOperators.Group.Finset

/-!
# What `stop` waits for

`bp_clean` polls until no handler is counted. While it polls nobody new is counted, and a handler
that is counted takes a few steps only, apart from draws that come to armed entries. If the draws
come to every entry again and again, there is always a way out of the polls.
-/

namespace Drddr

open Machine

/-- A bound on the steps that are left to a counted handler. Two are left for `bp_add(-1)` from its
taking the lock on, and a third for the end of the handler. -/
def HandlerPc.remaining : HandlerPc → Nat
  | .diverted _ => 13
  | .watching (.test k _) => 12 - k.val
  | .watching (.lock _) => 8
  | .watching (.number _) => 7
  | .watching (.done _) => 6
  | .watched _ => 5
  | .rearm => 4
  | .rearmLock => 3
  | .leaving => 1
  | _ => 0

/-- The handler at a position is counted. -/
def Driver.isCounted (s : Driver) (k : Nat) : Bool := (s.handlers[k]?).any (·.inFlight)

/-- A bound on the steps that are left to the handler at a position. -/
def Driver.leftTo (s : Driver) (k : Nat) : Nat := ((s.handlers[k]?).map HandlerPc.remaining).getD 0

/-- A bound on the steps that are left to a handler, which may be in the loop of `bp_add(-1)`. -/
def Drawing.leftTo (s : Drawing) (k : Nat) : Nat :=
  if s.holder = some (.handler k) then 2 else s.driver.leftTo k

/-- The step is a draw that comes to an armed entry. -/
def Drawing.drawsAgain (random : Nat → BitVec 32) (s : Drawing) : DrawingEvent → Bool
  | .draw => decide (s.driver.shared.bp.bpState
      (s.driver.shared.bp.drawnEntry (random s.drawn)) = .USING)
  | _ => false

/-- The step is one of the handler, which is counted, and no draw that comes to an armed entry. -/
def Drawing.advances (random : Nat → BitVec 32) (s : Drawing) (k : Nat) (event : DrawingEvent) :
    Bool :=
  s.driver.isCounted k && s.moves k event && !s.drawsAgain random event

/-- How many steps of a run advance the handler at a position. -/
def stepsOf (random : Nat → BitVec 32) (k : Nat) (s : Drawing) : List DrawingEvent → Nat
  | [] => 0
  | event :: events =>
    (s.advances random k event).toNat +
      ((drawingStep random s event).map (stepsOf random k · events)).getD 0

/-! ## One handler -/

variable {g g' : Shared} {pc pc' : HandlerPc} {input : HandlerInput}

/-- Only a counted handler has steps left. -/
theorem HandlerPc.remaining_le (pc : HandlerPc) : pc.remaining ≤ 13 * pc.inFlight.toNat := by
  cases pc with
  | watching pc =>
    cases pc with
    | test k req =>
      show 12 - k.val ≤ 13
      omega
    | lock | number | done => exact Nat.le_of_ble_eq_true rfl
  | _ => exact Nat.le_of_ble_eq_true rfl

/-- Inside `wp_add` every step leads nearer to its return. -/
theorem wpAddStep_remaining {t t' : WpTable} {pc pc' : WpAddPc}
    (stepped : wpAddStep t pc = some (t', pc')) :
    (HandlerPc.watching pc').remaining < (HandlerPc.watching pc).remaining := by
  cases pc with
  | test k req =>
    rw [wpAddStep] at stepped
    split at stepped
    · cases stepped
      show 8 < 12 - k.val
      omega
    · split at stepped
      · rename_i inside
        cases stepped
        show 12 - (k.val + 1) < 12 - k.val
        omega
      · cases stepped
        show 6 < 12 - k.val
        omega
  | lock req =>
    rw [wpAddStep] at stepped
    split at stepped
    · cases stepped
      exact Nat.lt_succ_self 7
    · cases stepped
      exact Nat.lt_add_of_pos_right (n := 6) Nat.two_pos
  | number slot =>
    cases stepped
    exact Nat.lt_succ_self 6
  | done id => contradiction

/-- Until it returns, `wp_add` can take a step. -/
theorem exists_wpAddStep (t : WpTable) (pc : WpAddPc) :
    (∃ id, pc = .done id) ∨ ∃ t' pc', wpAddStep t pc = some (t', pc') := by
  cases pc with
  | test k req =>
    right
    rw [wpAddStep]
    split
    · exact ⟨_, _, rfl⟩
    · split
      · exact ⟨_, _, rfl⟩
      · exact ⟨_, _, rfl⟩
  | lock req =>
    right
    rw [wpAddStep]
    split
    · exact ⟨_, _, rfl⟩
    · exact ⟨_, _, rfl⟩
  | number slot => exact .inr ⟨_, _, rfl⟩
  | done id => exact .inl ⟨id, rfl⟩

/-- A step of `wp_add` is a step of its handler. -/
theorem handlerStep_watching {wp : WpTable} {pc next : WpAddPc}
    (added : wpAddStep g.wp pc = some (wp, next)) :
    handlerStep g (.watching pc) .tick = some ({ g with wp }, .watching next) := by
  cases pc with
  | done id => contradiction
  | test k req =>
    have moved : handlerStep g (.watching (.test k req)) .tick =
        Option.map _ (wpAddStep g.wp (.test k req)) := rfl
    rw [moved, added]
    rfl
  | lock req =>
    have moved : handlerStep g (.watching (.lock req)) .tick =
        Option.map _ (wpAddStep g.wp (.lock req)) := rfl
    rw [moved, added]
    rfl
  | number slot =>
    cases added
    rfl

/-- A step of a handler inside `wp_add` is a step of `wp_add`. -/
theorem wpAddStep_of_watching {pc next : WpAddPc}
    (stepped : handlerStep g (.watching pc) input = some (g', .watching next)) :
    ∃ wp, wpAddStep g.wp pc = some (wp, next) := by
  cases input with
  | tick =>
    rcases exists_wpAddStep g.wp pc with ⟨id, rfl⟩ | ⟨wp, other, added⟩
    · rw [handlerStep] at stepped
      split at stepped <;> simp at stepped
    · rw [handlerStep_watching added] at stepped
      cases stepped
      exact ⟨wp, added⟩
  | decoded | drawn => cases pc <;> contradiction

/-- Every step of a counted handler is one of those left to it. -/
theorem handlerStep_remaining (counted : pc.inFlight = true)
    (stepped : handlerStep g pc input = some (g', pc')) : pc'.remaining < pc.remaining := by
  cases handlerStep_move stepped with
  | claim | pass | remove | miss | count | refuse => exact Bool.noConfusion counted
  | decode | skip | watch | full | unwatch | shut | lock | readd | leave =>
    exact Nat.le_of_ble_eq_true rfl
  | add pc next =>
    obtain ⟨wp, added⟩ := wpAddStep_of_watching stepped
    exact wpAddStep_remaining added

/-- While the flag is set a handler that is not counted has no more steps left than before. -/
theorem handlerStep_uncounted (stopping : g.bp.bpStopping = true) (uncounted : pc.inFlight = false)
    (stepped : handlerStep g pc input = some (g', pc')) :
    pc'.inFlight = false ∧ pc'.remaining = pc.remaining := by
  cases handlerStep_move stepped with
  | claim | pass | remove | miss | refuse => exact ⟨rfl, rfl⟩
  | count a flag => exact absurd (stopping.symm.trans flag) (by decide)
  | decode | skip | watch | full | add | unwatch | shut | lock | readd | leave =>
    exact Bool.noConfusion uncounted

/-- A counted handler can always take a step, unless it comes to the draws. -/
theorem exists_handlerStep (g : Shared) (counted : pc.inFlight = true) (plain : pc ≠ .rearmLock) :
    ∃ input g' pc', handlerStep g pc input = some (g', pc') := by
  cases pc with
  | diverted a => exact ⟨.decoded none, _, _, rfl⟩
  | watching pc =>
    rcases exists_wpAddStep g.wp pc with ⟨id, rfl⟩ | ⟨wp, next, added⟩
    · by_cases valid : id.isValid = true
      · exact ⟨.tick, _, _, by rw [handlerStep, if_pos valid]⟩
      · exact ⟨.tick, _, _, by rw [handlerStep, if_neg valid]⟩
    · exact ⟨.tick, _, _, handlerStep_watching added⟩
  | watched id => exact ⟨.tick, _, _, rfl⟩
  | rearm =>
    by_cases flag : g.bp.bpStopping = true
    · exact ⟨.tick, _, _, by rw [handlerStep, if_pos flag]⟩
    · exact ⟨.tick, _, _, by rw [handlerStep, if_neg flag]⟩
  | rearmLock => exact absurd rfl plain
  | leaving => exact ⟨.tick, _, _, rfl⟩
  | trapped | claimed | removed | passed | resumed | finished => exact Bool.noConfusion counted

/-! ## A step of the driver while `bp_clean` polls -/

/-- A counted handler stands at its place in the list. -/
theorem Driver.isCounted_iff {s : Driver} {k : Nat} :
    s.isCounted k = true ↔ ∃ pc, s.handlers[k]? = some pc ∧ pc.inFlight = true :=
  Option.any_eq_true ..

/-- A handler is counted when it stands where handlers are. -/
theorem Driver.isCounted_eq {s : Driver} {k : Nat} {pc : HandlerPc}
    (found : s.handlers[k]? = some pc) : s.isCounted k = pc.inFlight := by
  rw [Driver.isCounted, found]
  rfl

/-- The steps left to a handler are those left where it stands. -/
theorem Driver.leftTo_eq {s : Driver} {k : Nat} {pc : HandlerPc}
    (found : s.handlers[k]? = some pc) : s.leftTo k = pc.remaining := by
  rw [Driver.leftTo, found]
  rfl

/-- Only a counted handler has steps left. -/
theorem Driver.leftTo_le (s : Driver) (k : Nat) : s.leftTo k ≤ 13 * (s.isCounted k).toNat := by
  rw [Driver.leftTo, Driver.isCounted]
  cases s.handlers[k]? with
  | none => exact Nat.zero_le _
  | some pc => exact pc.remaining_le

section

variable {s t : Driver} {event : DriverEvent} {next : Option StartArgs}

/-- While `bp_clean` polls a step of a handler is one of those left to it if it is counted, leaves
no more to it, and does not count it anew. -/
theorem DriverKept.handler_fewer (inv : DriverKept s) (polls : s.control = .poll next)
    {pc pc' : HandlerPc} {input : HandlerInput} {g : Shared}
    (act : handlerStep s.shared pc input = some (g, pc')) :
    pc.inFlight.toNat + pc'.remaining ≤ pc.remaining ∧
      (pc'.inFlight = true → pc.inFlight = true) := by
  cases here : pc.inFlight with
  | true =>
    have less := handlerStep_remaining here act
    rw [Bool.toNat_true]
    exact ⟨by omega, fun _ => rfl⟩
  | false =>
    obtain ⟨out, still⟩ := handlerStep_uncounted (inv.invariant.polling next polls) here act
    rw [still, out]
    exact ⟨(Nat.zero_add _).le, id⟩

/-- While `bp_clean` polls a step of a counted handler is one of those left to it, no step leaves
more to any handler, and nobody new is counted. -/
theorem DriverKept.fewer (inv : DriverKept s) (polls : s.control = .poll next)
    (stepped : driverStep s event = some t) (k : Nat) :
    (s.isCounted k && event.isStepOf k).toNat + t.leftTo k ≤ s.leftTo k ∧
      (t.isCounted k = true → s.isCounted k = true) := by
  cases event with
  | trap ip =>
    cases Option.some.inj stepped
    have idle : (s.isCounted k && DriverEvent.isStepOf k (.trap ip)) = false := Bool.and_false _
    rw [idle, Bool.toNat_false, Nat.zero_add, Driver.leftTo, Driver.leftTo, Driver.isCounted,
      Driver.isCounted]
    show (((s.handlers ++ [.trapped ip])[k]?).map HandlerPc.remaining).getD 0 ≤ _ ∧
      (((s.handlers ++ [.trapped ip])[k]?).any (·.inFlight) = true → _)
    cases found : (s.handlers ++ [.trapped ip])[k]? with
    | none => exact ⟨Nat.zero_le _, fun counted => Bool.noConfusion counted⟩
    | some pc =>
      rcases getElem?_started.mp found with old | ⟨-, rfl⟩
      · rw [old]
        exact ⟨le_rfl, id⟩
      · exact ⟨Nat.zero_le _, fun counted => Bool.noConfusion counted⟩
  | handler j input =>
    obtain ⟨⟨g, handlers⟩, moved, rfl⟩ := Option.map_eq_some_iff.mp stepped
    obtain ⟨pc, pc', found, rfl, act⟩ := poolStep_set moved
    by_cases same : j = k
    · subst same
      have after : (s.handlers.set j pc')[j]? = some pc' :=
        List.getElem?_set_self (List.getElem?_eq_some_iff.mp found).1
      have mine : DriverEvent.isStepOf j (.handler j input) = true := decide_eq_true rfl
      have left : Driver.leftTo ⟨g, s.handlers.set j pc', s.running, s.control⟩ j =
          pc'.remaining := Driver.leftTo_eq after
      have counted : Driver.isCounted ⟨g, s.handlers.set j pc', s.running, s.control⟩ j =
          pc'.inFlight := Driver.isCounted_eq after
      rw [mine, Bool.and_true, Driver.leftTo_eq found, left, Driver.isCounted_eq found, counted]
      exact inv.handler_fewer polls act
    · have other : DriverEvent.isStepOf k (.handler j input) = false := decide_eq_false same
      have old : (s.handlers.set j pc')[k]? = s.handlers[k]? := List.getElem?_set_ne same
      rw [other, Bool.and_false, Bool.toNat_false, Nat.zero_add, Driver.leftTo, Driver.leftTo,
        Driver.isCounted, Driver.isCounted, old]
      exact ⟨le_rfl, id⟩
  | start | stop =>
    rw [driverStep, polls] at stepped
    contradiction
  | control draws =>
    obtain ⟨-, -, rfl⟩ := Option.map_eq_some_iff.mp stepped
    have idle : (s.isCounted k && DriverEvent.isStepOf k (.control draws)) = false :=
      Bool.and_false _
    rw [idle]
    exact ⟨(Nat.zero_add _).le, id⟩

/-- While `bp_clean` polls the list stays as it is; the polls go on, or they are over and nobody is
counted. -/
theorem DriverKept.polled (inv : DriverKept s) (polls : s.control = .poll next)
    (stepped : driverStep s event = some t) :
    t.shared.bp.bpCount = s.shared.bp.bpCount ∧
      (t.control = .poll next ∨ t.control = .wpClean next ∧ s.shared.bp.bpTrapCount = 0) := by
  cases event with
  | trap ip =>
    cases Option.some.inj stepped
    exact ⟨rfl, .inl polls⟩
  | handler k input =>
    obtain ⟨⟨g, handlers⟩, moved, rfl⟩ := Option.map_eq_some_iff.mp stepped
    obtain ⟨pc, pc', -, rfl, act⟩ := poolStep_set moved
    have list : s.shared.bp.SameList g.bp := (handlerStep_effect act).sameList inv.launched.count
    exact ⟨list.count, .inl polls⟩
  | start | stop =>
    rw [driverStep, polls] at stepped
    contradiction
  | control draws =>
    obtain ⟨⟨g, running, pc⟩, moved, rfl⟩ := Option.map_eq_some_iff.mp stepped
    obtain ⟨shared, handlers, wasRunning, control⟩ := s
    obtain rfl : control = .poll next := polls
    cases controlStep_move moved with
    | drained next zero => exact ⟨rfl, .inr ⟨rfl, zero⟩⟩
    | wait next => exact ⟨rfl, .inl rfl⟩

end

/-! ## A step draw by draw -/

section

variable {random : Nat → BitVec 32} {s t : Drawing} {event : DrawingEvent}
  {next : Option StartArgs}

/-- Only a handler draws while `bp_clean` polls. -/
theorem drawsNext_polls {s : Driver} {who : Drawer} (polls : s.control = .poll next)
    (draws : s.drawsNext who = true) :
    ∃ k, who = .handler k ∧ s.handlers[k]? = some .rearmLock := by
  cases who with
  | handler k => exact ⟨k, rfl, of_decide_eq_true draws⟩
  | control =>
    rw [Driver.drawsNext, polls] at draws
    exact Bool.noConfusion draws

/-- A handler that ends its `bp_add(-1)` has one step left. -/
theorem leftTo_adds {s t : Driver} {k : Nat} {numbers : List (BitVec 32)}
    (found : s.handlers[k]? = some .rearmLock)
    (stepped : driverStep s (Drawer.adds (.handler k) numbers) = some t) : t.leftTo k = 1 := by
  obtain ⟨⟨g, handlers⟩, moved, rfl⟩ := Option.map_eq_some_iff.mp stepped
  obtain ⟨pc, pc', here, rfl, act⟩ := poolStep_set moved
  obtain rfl := Option.some.inj (found.symm.trans here)
  obtain rfl := handlerStep_rearmLock act
  have inside := (List.getElem?_eq_some_iff.mp found).1
  exact @Driver.leftTo_eq _ k .leaving (List.getElem?_set_self inside)

/-- A step of the driver advances a handler that is counted and takes it. -/
theorem advances_plain {event : DriverEvent} (k : Nat) :
    s.advances random k (.plain event) = (s.driver.isCounted k && event.isStepOf k) :=
  Bool.and_true _

/-- Taking the lock for the loop of `bp_add(-1)` advances a handler that is counted and takes it. -/
theorem advances_lock (j k : Nat) :
    s.advances random k (.lock (.handler j)) = (s.driver.isCounted k && decide (j = k)) := by
  have same : decide (Drawer.handler j = .handler k) = decide (j = k) :=
    decide_eq_decide.mpr (Drawer.handler.injEq j k).to_iff
  show (s.driver.isCounted k && decide (Drawer.handler j = .handler k) && true) = _
  rw [Bool.and_true, same]

/-- Only a counted handler has steps left. -/
theorem DrawingKept.leftTo_le (inv : DrawingKept s) (k : Nat) :
    s.leftTo k ≤ 13 * (s.driver.isCounted k).toNat := by
  rw [Drawing.leftTo]
  by_cases held : s.holder = some (.handler k)
  · have found : s.driver.handlers[k]? = some .rearmLock :=
      of_decide_eq_true (inv.holding _ held).1
    have counted : s.driver.isCounted k = true := Driver.isCounted_iff.mpr ⟨_, found, rfl⟩
    rw [if_pos held, counted]
    decide
  · rw [if_neg held]
    exact s.driver.leftTo_le k

/-- A step of a counted handler is one of those left to it, unless it is a draw that comes to an
armed entry, no step leaves more to any handler, and nobody new is counted. -/
theorem DrawingKept.fewer (inv : DrawingKept s) (polls : s.driver.control = .poll next)
    (stepped : drawingStep random s event = some t) (k : Nat) :
    (s.advances random k event).toNat + t.leftTo k ≤ s.leftTo k ∧
      (t.driver.isCounted k = true → s.driver.isCounted k = true) := by
  cases drawingStep_move stepped with
  | plain event driver free moved =>
    obtain ⟨less, counted⟩ := inv.kept.fewer polls moved k
    refine ⟨?_, counted⟩
    rw [advances_plain, Drawing.leftTo, Drawing.leftTo]
    by_cases held : s.holder = some (.handler k)
    · have idle : event.isStepOf k = false := by
        cases event with
        | handler j input =>
          refine decide_eq_false fun same => ?_
          have apart := (free_of_not_bars held free (.handler j) rfl).1
          rw [same, (inv.holding _ held).1] at apart
          exact Bool.noConfusion apart
        | trap | start | stop | control => rfl
      rw [if_pos held, if_pos held, idle, Bool.and_false]
      decide
    · rw [if_neg held, if_neg held]
      exact less
  | refused who driver unlocked draws full moved =>
    obtain ⟨j, rfl, found⟩ := drawsNext_polls polls draws
    obtain ⟨less, counted⟩ := inv.kept.fewer polls moved k
    refine ⟨?_, counted⟩
    have open' : s.holder ≠ some (.handler k) := by simp [unlocked]
    rw [advances_lock, Drawing.leftTo, Drawing.leftTo, if_neg open', if_neg open']
    exact less
  | locked who unlocked draws room =>
    obtain ⟨j, rfl, found⟩ := drawsNext_polls polls draws
    refine ⟨?_, id⟩
    have open' : s.holder ≠ some (.handler k) := by simp [unlocked]
    rw [Drawing.leftTo, Drawing.leftTo, if_neg open']
    by_cases same : j = k
    · subst same
      have one := Bool.toNat_le (s.advances random j (.lock (.handler j)))
      have three : s.driver.leftTo j = 3 := Driver.leftTo_eq found
      rw [if_pos rfl, three]
      omega
    · have apart : (some (Drawer.handler j) : Option Drawer) ≠ some (.handler k) := by
        simpa using same
      rw [advances_lock, decide_eq_false same, Bool.and_false, if_neg apart]
      exact (Nat.zero_add _).le
  | again who held used =>
    refine ⟨?_, id⟩
    have idle : s.advances random k .draw = false := by
      have again : s.drawsAgain random .draw = true := decide_eq_true used
      rw [Drawing.advances, again, Bool.not_true, Bool.and_false]
    rw [idle]
    exact (Nat.zero_add _).le
  | ended who driver held free moved =>
    obtain ⟨j, rfl, found⟩ := drawsNext_polls polls (inv.holding who held).1
    obtain ⟨less, counted⟩ := inv.kept.fewer polls moved k
    refine ⟨?_, counted⟩
    rw [Drawing.leftTo, Drawing.leftTo, if_neg (by simp), held]
    by_cases same : j = k
    · subst same
      have one := Bool.toNat_le (s.advances random j .draw)
      rw [if_pos rfl, leftTo_adds found moved]
      omega
    · have apart : (some (Drawer.handler j) : Option Drawer) ≠ some (.handler k) := by
        simpa using same
      have idle : s.advances random k .draw = false := by
        have other : s.moves k .draw = false := decide_eq_false (held ▸ apart)
        rw [Drawing.advances, other, Bool.and_false, Bool.false_and]
      rw [idle, if_neg apart]
      exact (Nat.zero_add _).le.trans ((Nat.le_add_left _ _).trans less)

/-- While `bp_clean` polls the list stays as it is; the polls go on, or they are over and nobody is
counted. -/
theorem DrawingKept.polled (inv : DrawingKept s) (polls : s.driver.control = .poll next)
    (stepped : drawingStep random s event = some t) :
    t.driver.shared.bp.bpCount = s.driver.shared.bp.bpCount ∧
      (t.driver.control = .poll next ∨
        t.driver.control = .wpClean next ∧ s.driver.shared.bp.bpTrapCount = 0) := by
  rcases drawingStep_driver stepped with same | ⟨step, moved⟩
  · rw [same]
    exact ⟨rfl, .inl polls⟩
  · exact inv.kept.polled polls moved

/-- A run through the polls keeps the invariant, and takes as many steps of a handler as are then no
longer left to it. -/
theorem DrawingKept.run {events : List DrawingEvent} (inv : DrawingKept s)
    (polling : Admits (drawingStep random) (fun u _ => u.driver.control = .poll next) s events)
    (ran : Machine.run (drawingStep random) s events = some t) :
    DrawingKept t ∧ t.driver.shared.bp.bpCount = s.driver.shared.bp.bpCount ∧
      ∀ k, stepsOf random k s events + t.leftTo k ≤ s.leftTo k ∧
        (t.driver.isCounted k = true → s.driver.isCounted k = true) := by
  induction events generalizing s with
  | nil =>
    obtain rfl := Option.some.inj ran
    exact ⟨inv, rfl, fun k => ⟨(Nat.zero_add _).le, id⟩⟩
  | cons event events ih =>
    obtain ⟨u, stepped, ran⟩ := run_cons_eq_some.mp ran
    obtain ⟨last, number, each⟩ := ih (inv.step stepped) (polling.2 u stepped) ran
    refine ⟨last, number.trans (inv.polled polling.1 stepped).1, fun k => ?_⟩
    obtain ⟨less, counted⟩ := inv.fewer polling.1 stepped k
    obtain ⟨rest, counted'⟩ := each k
    refine ⟨?_, fun still => counted (counted' still)⟩
    show (s.advances random k event).toNat +
      ((drawingStep random s event).map (stepsOf random k · events)).getD 0 + t.leftTo k ≤ _
    rw [stepped, Option.map_some, Option.getD_some]
    omega

/-! ## The way out -/

/-- A counted handler has its place in the list. -/
theorem isCounted_lt {s : Driver} {k : Nat} (counted : s.isCounted k = true) :
    k < s.handlers.length := by
  obtain ⟨pc, found, -⟩ := Driver.isCounted_iff.mp counted
  exact (List.getElem?_eq_some_iff.mp found).1

/-- Where no handler is counted at any position, none is. -/
theorem forall_inFlight {s : Driver} (nobody : ∀ k, s.isCounted k = false) :
    ∀ pc ∈ s.handlers, pc.inFlight = false := by
  intro pc member
  obtain ⟨k, found⟩ := List.mem_iff_getElem?.mp member
  refine Bool.eq_false_iff.mpr fun counted => ?_
  exact Bool.noConfusion ((nobody k).symm.trans (Driver.isCounted_iff.mpr ⟨pc, found, counted⟩))

/-- The trap count is not zero while a handler is counted. -/
theorem DriverKept.trapCount {s : Driver} (inv : DriverKept s) {k : Nat}
    (counted : s.isCounted k = true) : s.shared.bp.bpTrapCount ≠ 0 := by
  obtain ⟨pc, found, here⟩ := Driver.isCounted_iff.mp counted
  have positive : 0 < s.handlers.countP (·.inFlight) :=
    List.countP_pos_iff.mpr ⟨pc, List.mem_of_getElem? found, here⟩
  have count := inv.invariant.count
  omega

/-- With the lock free a counted handler can take one of its steps. -/
theorem exists_advance (unlocked : s.holder = none) {k : Nat}
    (counted : s.driver.isCounted k = true) :
    ∃ event t, drawingStep random s event = some t ∧ s.advances random k event = true := by
  obtain ⟨pc, found, here⟩ := Driver.isCounted_iff.mp counted
  by_cases draws : pc = .rearmLock
  · subst draws
    have next : s.driver.drawsNext (.handler k) = true := decide_eq_true found
    have advances : s.advances random k (.lock (.handler k)) = true := by
      rw [advances_lock, counted, decide_eq_true rfl]
      rfl
    by_cases full : s.driver.shared.bp.bpUsageCount = s.driver.shared.bp.bpCount
    · have adds : s.driver.shared.bp.bpAddLocked (-1) [] =
          some (false, s.driver.shared.bp, []) := by
        rw [Bp.bpAddLocked, if_pos rfl, if_pos full]
      obtain ⟨driver, moved⟩ := exists_adds next adds
      refine ⟨_, { s with driver }, ?_, advances⟩
      rw [drawingStep, if_pos ⟨unlocked, next⟩, if_pos full, moved]
      rfl
    · refine ⟨_, { s with holder := some (.handler k) }, ?_, advances⟩
      rw [drawingStep, if_pos ⟨unlocked, next⟩, if_neg full]
  · obtain ⟨input, g, pc', act⟩ := exists_handlerStep s.driver.shared here draws
    have moved : driverStep s.driver (.handler k input) =
        some { s.driver with shared := g, handlers := s.driver.handlers.set k pc' } := by
      rw [driverStep, poolStep, found, Option.bind_some, act]
      rfl
    have apart : s.driver.drawsNext (.handler k) = false :=
      decide_eq_false fun same => draws (Option.some.inj (found.symm.trans same))
    have free : (DriverEvent.handler k input).thread.any s.bars = false := by
      show (s.driver.drawsNext (.handler k) || s.holder.isSome && _) = false
      rw [apart, unlocked]
      rfl
    have mine : (DriverEvent.handler k input).isStepOf k = true := decide_eq_true rfl
    refine ⟨_, _, drawingStep_plain free moved, ?_⟩
    rw [advances_plain, counted, mine]
    rfl

/-- While a handler is counted and the numbers are fair, some steps lead on in the polls with less
left to one handler and no more to any other. -/
theorem DrawingKept.exists_less (inv : DrawingKept s) (polls : s.driver.control = .poll next)
    (int : s.driver.shared.bp.bpCount < 2 ^ 31)
    (fair : FairDraws s.driver.shared.bp.bpCount.toNat random) {k : Nat}
    (counted : s.driver.isCounted k = true) :
    ∃ events t, Machine.run (drawingStep random) s events = some t ∧
      t.driver.control = .poll next ∧
      t.driver.shared.bp.bpCount = s.driver.shared.bp.bpCount ∧
      (∀ j, t.leftTo j ≤ s.leftTo j ∧
        (t.driver.isCounted j = true → s.driver.isCounted j = true)) ∧
      ∃ j, s.driver.isCounted j = true ∧ t.leftTo j < s.leftTo j := by
  have stays {t : Driver} (either : t.control = .poll next ∨
      t.control = .wpClean next ∧ s.driver.shared.bp.bpTrapCount = 0) : t.control = .poll next :=
    either.resolve_right fun out => inv.kept.trapCount counted out.2
  cases held : s.holder with
  | none =>
    obtain ⟨event, t, stepped, advances⟩ := @exists_advance random s held k counted
    obtain ⟨number, control⟩ := inv.polled polls stepped
    refine ⟨[event], t, run_cons_eq_some.mpr ⟨t, stepped, rfl⟩, stays control, number,
      fun j => ?_, k, counted, ?_⟩
    · obtain ⟨less, old⟩ := inv.fewer polls stepped j
      exact ⟨(Nat.le_add_left _ _).trans less, old⟩
    · have less := (inv.fewer polls stepped k).1
      rw [advances, Bool.toNat_true] at less
      omega
  | some who =>
    obtain ⟨j, rfl, found⟩ := drawsNext_polls polls (inv.holding who held).1
    obtain ⟨later, after, free⟩ := inv.exists_free held int fair s.drawn
    obtain ⟨draws, room⟩ := inv.holding _ held
    obtain ⟨d, driver, drawn, ran, -, numbers, moved⟩ := exists_ended held draws room after free
    obtain ⟨number, control⟩ := inv.kept.polled polls moved
    have open' (i : Nat) : (none : Option Drawer) ≠ some (.handler i) := by simp
    refine ⟨_, _, ran, stays control, number, fun i => ?_, j,
      Driver.isCounted_iff.mpr ⟨_, found, rfl⟩, ?_⟩
    · obtain ⟨less, old⟩ := inv.kept.fewer polls moved i
      refine ⟨?_, old⟩
      rw [Drawing.leftTo, if_neg (open' i), Drawing.leftTo]
      by_cases same : s.holder = some (.handler i)
      · obtain rfl : j = i := Drawer.handler.inj (Option.some.inj (held.symm.trans same))
        rw [if_pos same, leftTo_adds found moved]
        decide
      · rw [if_neg same]
        exact (Nat.le_add_left _ _).trans less
    · rw [Drawing.leftTo, if_neg (open' j), Drawing.leftTo, if_pos held, leftTo_adds found moved]
      decide

/-- The steps that are left to the handlers at the first positions. -/
def Drawing.leftBelow (s : Drawing) (n : Nat) : Nat := ∑ k ∈ Finset.range n, s.leftTo k

/-- With less left to one of them and no more to any other, less is left to them together. -/
theorem leftBelow_lt {n k : Nat} (each : ∀ j, t.leftTo j ≤ s.leftTo j) (inside : k < n)
    (less : t.leftTo k < s.leftTo k) : t.leftBelow n < s.leftBelow n :=
  Finset.sum_lt_sum (fun j _ => each j) ⟨k, Finset.mem_range.mpr inside, less⟩

/-- With nobody counted the next poll is the last. -/
theorem DrawingKept.drained (inv : DrawingKept s) (polls : s.driver.control = .poll next)
    (nobody : ∀ k, s.driver.isCounted k = false) :
    drawingStep random s (.plain (.control [])) =
      some { s with driver := { s.driver with control := .wpClean next } } := by
  have zero : s.driver.shared.bp.bpTrapCount = 0 := by
    rw [inv.kept.invariant.count]
    exact_mod_cast List.countP_eq_zero.mpr fun pc member => by
      simp [forall_inFlight nobody pc member]
  have free : (DriverEvent.control []).thread.any s.bars = false := by
    show (s.driver.control.drawsNext || s.holder.isSome && s.driver.control.takesLock) = false
    rw [polls]
    exact Bool.and_false _
  refine drawingStep_plain free ?_
  rw [driverStep, polls, controlStep, if_pos zero]
  rfl

/-- With fair numbers there is a way out of the polls. -/
theorem DrawingKept.exists_rest {n size : Nat} (inv : DrawingKept s)
    (polls : s.driver.control = .poll next) (int : s.driver.shared.bp.bpCount < 2 ^ 31)
    (fair : FairDraws s.driver.shared.bp.bpCount.toNat random)
    (inside : ∀ k, s.driver.isCounted k = true → k < n) (left : s.leftBelow n ≤ size) :
    ∃ rest u, Machine.run (drawingStep random) s rest = some u ∧
      u.driver.control = .wpClean next ∧ ∀ pc ∈ u.driver.handlers, pc.inFlight = false := by
  induction size using Nat.strong_induction_on generalizing s with
  | _ size ih =>
    by_cases somebody : ∃ k, s.driver.isCounted k = true
    · obtain ⟨k, counted⟩ := somebody
      obtain ⟨events, t, ran, polls', number, each, j, here, less⟩ :=
        inv.exists_less polls int fair counted
      have kept : DrawingKept t := run_invariant (fun _ _ _ => DrawingKept.step) inv ran
      have fewer : t.leftBelow n < s.leftBelow n :=
        leftBelow_lt (fun i => (each i).1) (inside j here) less
      obtain ⟨rest, u, more, out⟩ := ih (t.leftBelow n) (by omega) kept polls'
        (number.trans_lt int) (number ▸ fair) (fun i still => inside i ((each i).2 still)) le_rfl
      refine ⟨events ++ rest, u, ?_, out⟩
      rw [run_append, ran]
      exact more
    · have nobody : ∀ k, s.driver.isCounted k = false := fun k =>
        Bool.eq_false_of_not_eq_true fun counted => somebody ⟨k, counted⟩
      exact ⟨[.plain (.control [])], _,
        run_cons_eq_some.mpr ⟨_, inv.drained polls nobody, rfl⟩, rfl, forall_inFlight nobody⟩

end

/-- In every run in which the loops of `bp_add(-1)` are cut into their draws, while `bp_clean`
polls: every handler that is counted takes at most thirteen steps, not counting draws that come to
armed entries, whatever the other threads do in between; no handler is counted that was not; and if
the numbers come to every entry again and again, there is a way out of the polls from every state,
and nobody is counted then. -/
theorem stop_bounded (random : Nat → BitVec 32) (text : Memory) (wp : WpTable)
    (history events : List DrawingEvent) (s t : Drawing) (next : Option StartArgs)
    (reached : run (drawingStep random) (loadDrawing text wp) history = some s)
    (polling : Admits (drawingStep random) (fun u _ => u.driver.control = .poll next) s events)
    (ran : run (drawingStep random) s events = some t) :
    (∀ k, stepsOf random k s events ≤ 13 * (s.driver.isCounted k).toNat) ∧
      (∀ k, t.driver.isCounted k = true → s.driver.isCounted k = true) ∧
      (t.driver.control = .poll next → t.driver.shared.bp.bpCount < 2 ^ 31 →
        FairDraws t.driver.shared.bp.bpCount.toNat random →
        ∃ rest u, run (drawingStep random) t rest = some u ∧ u.driver.control = .wpClean next ∧
          ∀ pc ∈ u.driver.handlers, pc.inFlight = false) := by
  have start := DrawingKept.ofReached reached
  obtain ⟨last, number, each⟩ := start.run polling ran
  refine ⟨fun k => ?_, fun k => (each k).2, fun polls int fair => ?_⟩
  · have less := (each k).1
    have most := start.leftTo_le k
    omega
  · exact last.exists_rest polls int fair (fun k => isCounted_lt)
      (le_refl (t.leftBelow t.driver.handlers.length))

/-- The handler of the first session comes to its draws before `stop`, which comes to its polls. -/
def stopWhileCounted : List DrawingEvent :=
  (startOne ++ comeToRearm ++ [DriverEvent.stop, .control []]).map .plain

/-- Any numbers are fair draws of one entry. -/
theorem fairDraws_one (random : Nat → BitVec 32) : FairDraws 1 random := by
  intro i below k
  refine ⟨k, le_rfl, ?_⟩
  rw [Nat.mod_one, Nat.lt_one_iff.mp below]

/-- The handler takes the lock, the control thread polls, and the handler draws. -/
theorem stop_bounded_draw :
    ∃ s t, run (drawingStep (BitVec.ofNat 32)) (loadDrawing noops .loaded) stopWhileCounted =
        some s ∧
      run (drawingStep (BitVec.ofNat 32)) s [.lock (.handler 0), .plain (.control []), .draw] =
        some t ∧
      s.driver.handlers = [.rearmLock] ∧ t.driver.handlers = [.leaving] ∧
      stepsOf (BitVec.ofNat 32) 0 s [.lock (.handler 0), .plain (.control []), .draw] ≤ 13 ∧
      ∃ rest u, run (drawingStep (BitVec.ofNat 32)) t rest = some u ∧
        u.driver.control = .wpClean none ∧ ∀ pc ∈ u.driver.handlers, pc.inFlight = false := by
  refine ⟨_, _, rfl, rfl, rfl, rfl, ?_⟩
  have bounded := stop_bounded (BitVec.ofNat 32) noops .loaded stopWhileCounted
    [.lock (.handler 0), .plain (.control []), .draw] _ _ none rfl
    (admits_cons rfl rfl (admits_cons rfl rfl (admits_cons rfl rfl trivial))) rfl
  exact ⟨bounded.1 0, bounded.2.2 rfl (by decide) (fairDraws_one _)⟩

end Drddr
