import Drddr.Driver.Wait
import Drddr.Machine.Fair

/-!
# `stop` returns

In a run that does not end, `bp_clean` leaves its polls, if every thread that can go on does so at
some time and the draws come to every entry again and again. Were it to poll for ever, from some
time on no counted handler would take a step other than draws that come to armed entries; the table
would stay as it is then, and a draw would come to an entry that is not armed.
-/

namespace Drddr

open Machine

/-- The step is one of the control thread. -/
def DrawingEvent.isControl : DrawingEvent → Bool
  | .plain (.control _) => true
  | _ => false

/-- The step is a draw. -/
def DrawingEvent.isDraw : DrawingEvent → Bool
  | .draw => true
  | _ => false

/-- The handler is counted, and it draws or has not to wait for the lock. -/
def Drawing.canMove (s : Drawing) (k : Nat) : Bool :=
  s.driver.isCounted k &&
    (decide (s.holder = some (.handler k)) ||
      !(s.holder.isSome && s.driver.takesLock (.handler k)))

section

variable {random : Nat → BitVec 32} {s t : Drawing} {event : DrawingEvent}
  {next : Option StartArgs}

/-- A counted handler that takes no step of the driver stays counted. -/
theorem isCounted_still {s t : Driver} {event : DriverEvent} {k : Nat}
    (stepped : driverStep s event = some t) (counted : s.isCounted k = true)
    (waits : event.isStepOf k = false) : t.isCounted k = true := by
  obtain ⟨pc, found, here⟩ := Driver.isCounted_iff.mp counted
  cases event with
  | trap ip =>
    cases Option.some.inj stepped
    exact Driver.isCounted_iff.mpr ⟨pc, getElem?_started.mpr (.inl found), here⟩
  | handler j input =>
    obtain ⟨⟨g, handlers⟩, moved, rfl⟩ := Option.map_eq_some_iff.mp stepped
    obtain ⟨-, -, -, rfl, -⟩ := poolStep_set moved
    have other : j ≠ k := of_decide_eq_false waits
    refine Driver.isCounted_iff.mpr ⟨pc, ?_, here⟩
    show (s.handlers.set j _)[k]? = some pc
    rw [List.getElem?_set_ne other]
    exact found
  | start | stop =>
    obtain ⟨shared, handlers, running, control⟩ := s
    cases control with
    | idle =>
      cases Option.some.inj stepped
      exact counted
    | _ => contradiction
  | control draws =>
    obtain ⟨-, -, rfl⟩ := Option.map_eq_some_iff.mp stepped
    exact counted

/-- A step in which no handler advances leaves the lock where it is and every counted handler
counted. -/
theorem DrawingKept.still (inv : DrawingKept s) (polls : s.driver.control = .poll next)
    (stepped : drawingStep random s event = some t)
    (waits : ∀ k, s.advances random k event = false) :
    t.holder = s.holder ∧ ∀ k, s.driver.isCounted k = true → t.driver.isCounted k = true := by
  have counted {j : Nat} (found : s.driver.handlers[j]? = some .rearmLock) :
      s.driver.isCounted j = true := Driver.isCounted_iff.mpr ⟨_, found, rfl⟩
  cases drawingStep_move stepped with
  | plain step driver free moved =>
    refine ⟨rfl, fun k here => isCounted_still moved here ?_⟩
    have idle := waits k
    rwa [advances_plain, here, Bool.true_and] at idle
  | refused who driver unlocked draws full moved =>
    obtain ⟨j, rfl, found⟩ := drawsNext_polls polls draws
    have idle := waits j
    rw [advances_lock, counted found, decide_eq_true rfl] at idle
    exact Bool.noConfusion idle
  | locked who unlocked draws room =>
    obtain ⟨j, rfl, found⟩ := drawsNext_polls polls draws
    have idle := waits j
    rw [advances_lock, counted found, decide_eq_true rfl] at idle
    exact Bool.noConfusion idle
  | again => exact ⟨rfl, fun _ here => here⟩
  | ended who driver held free moved =>
    obtain ⟨j, rfl, found⟩ := drawsNext_polls polls (inv.holding who held).1
    have moves : s.moves j .draw = true := decide_eq_true held
    have last : s.drawsAgain random .draw = false := decide_eq_false free
    have idle := waits j
    rw [Drawing.advances, counted found, moves, last] at idle
    exact Bool.noConfusion idle

/-- Each draw takes one number, and no other step takes any. -/
theorem drawn_step (stepped : drawingStep random s event = some t) :
    t.drawn = s.drawn + event.isDraw.toNat := by
  cases drawingStep_move stepped with
  | plain | refused | locked | again | ended => rfl

/-- While no handler advances, the table stays as it is for the thread in the loop. -/
theorem DrawingKept.still_bp (inv : DrawingKept s) (polls : s.driver.control = .poll next)
    (stepped : drawingStep random s event = some t)
    (waits : ∀ k, s.advances random k event = false) {who : Drawer} (held : s.holder = some who) :
    t.driver.shared.bp = s.driver.shared.bp := by
  have same := (inv.still polls stepped waits).1
  cases drawingStep_move stepped with
  | plain step driver free moved =>
    exact (inv.kept.undisturbed (inv.holding who held).1 (free_of_not_bars held free) moved).2
  | refused who driver unlocked => exact absurd (unlocked.symm.trans held) (by simp)
  | locked who unlocked => exact absurd (unlocked.symm.trans held) (by simp)
  | again => rfl
  | ended => exact absurd (same.trans held) (by simp)

/-- With nobody counted the next step of the control thread is its way out. -/
theorem poll_zero (polls : s.driver.control = .poll next)
    (zero : s.driver.shared.bp.bpTrapCount = 0) (control : event.isControl = true)
    (stepped : drawingStep random s event = some t) : t.driver.control = .wpClean next := by
  cases drawingStep_move stepped with
  | plain step driver free moved =>
    cases step with
    | control draws =>
      rw [driverStep, polls, controlStep, if_pos zero] at moved
      cases moved
      rfl
    | trap | handler | start | stop => exact Bool.noConfusion control
  | refused | locked | again | ended => exact Bool.noConfusion control

/-- Where somebody is counted, it is the handler at some position. -/
theorem DriverKept.exists_isCounted {s : Driver} (inv : DriverKept s)
    (somebody : s.shared.bp.bpTrapCount ≠ 0) : ∃ k, s.isCounted k = true := by
  have counted : 0 < s.handlers.countP (·.inFlight) := by
    have count := inv.invariant.count
    omega
  obtain ⟨pc, member, counted⟩ := List.countP_pos_iff.mp counted
  obtain ⟨k, found⟩ := List.mem_iff_getElem?.mp member
  exact ⟨k, Driver.isCounted_iff.mpr ⟨pc, found, counted⟩⟩

end

/-- A run through the polls that does not end. -/
structure PollsForever (random : Nat → BitVec 32) (next : Option StartArgs) (state : Nat → Drawing)
    (event : Nat → DrawingEvent) : Prop where
  runs : Runs (drawingStep random) state event
  kept : ∀ n, DrawingKept (state n)
  polls : ∀ n, (state n).driver.control = .poll next

section

variable {random : Nat → BitVec 32} {next : Option StartArgs} {state : Nat → Drawing}
  {event : Nat → DrawingEvent} {n : Nat}

/-- While no handler advances, the lock stays where it is and every counted handler counted. -/
theorem PollsForever.still (forever : PollsForever random next state event)
    (waits : ∀ m, n ≤ m → ∀ k, (state m).advances random k (event m) = false) {m : Nat}
    (later : n ≤ m) :
    (state m).holder = (state n).holder ∧
      ∀ k, (state n).driver.isCounted k = true → (state m).driver.isCounted k = true := by
  induction m, later using Nat.le_induction with
  | base => exact ⟨rfl, fun _ here => here⟩
  | succ m later ih =>
    obtain ⟨same, counted⟩ :=
      (forever.kept m).still (forever.polls m) (forever.runs m) (waits m later)
    exact ⟨same.trans ih.1, fun k here => counted k (ih.2 k here)⟩

/-- While no handler advances, a counted handler that always takes another step is in the loop of
its `bp_add(-1)`, and all its draws come to armed entries. -/
theorem PollsForever.draws (forever : PollsForever random next state event)
    (waits : ∀ m, n ≤ m → ∀ k, (state m).advances random k (event m) = false) {k m : Nat}
    (later : n ≤ m) (counted : (state n).driver.isCounted k = true)
    (mine : (state m).moves k (event m) = true) :
    (state m).holder = some (.handler k) ∧ event m = .draw ∧
      (state m).drawsAgain random .draw = true := by
  have here := (forever.still waits later).2 k counted
  have idle := waits m later k
  rw [Drawing.advances, here, mine, Bool.true_and, Bool.true_and, Bool.not_eq_false'] at idle
  cases taken : event m with
  | plain | lock =>
    rw [taken] at idle
    exact Bool.noConfusion idle
  | draw =>
    rw [taken] at mine idle
    exact ⟨of_decide_eq_true mine, rfl, idle⟩

/-- While no handler advances, the table stays as it is for the thread in the loop. -/
theorem PollsForever.bp (forever : PollsForever random next state event)
    (waits : ∀ m, n ≤ m → ∀ k, (state m).advances random k (event m) = false) {who : Drawer}
    (held : (state n).holder = some who) {m : Nat} (later : n ≤ m) :
    (state m).driver.shared.bp = (state n).driver.shared.bp := by
  induction m, later using Nat.le_induction with
  | base => rfl
  | succ m later ih =>
    have holds := (forever.still waits later).1.trans held
    exact ((forever.kept m).still_bp (forever.polls m) (forever.runs m) (waits m later) holds).trans
      ih

/-- With fair numbers some handler advances again and again, if every handler that can always move
does so and the control thread goes on polling. -/
theorem PollsForever.advances (forever : PollsForever random next state event)
    (int : (state n).driver.shared.bp.bpCount < 2 ^ 31)
    (fair : FairDraws (state n).driver.shared.bp.bpCount.toNat random)
    (handlers : ∀ k n, (∀ m, n ≤ m → (state m).canMove k = true) →
      ∃ m, n ≤ m ∧ (state m).moves k (event m) = true)
    (control : ∀ n, ∃ m, n ≤ m ∧ (event m).isControl = true) :
    ∃ m, n ≤ m ∧ ∃ k, (state m).advances random k (event m) = true := by
  by_contra never
  have waits (m : Nat) (later : n ≤ m) (k : Nat) : (state m).advances random k (event m) = false :=
    Bool.eq_false_of_not_eq_true fun advances => never ⟨m, later, k, advances⟩
  cases held : (state n).holder with
  | none =>
    obtain ⟨m, later, polled⟩ := control n
    have somebody : (state m).driver.shared.bp.bpTrapCount ≠ 0 := by
      intro zero
      have out := poll_zero (forever.polls m) zero polled (forever.runs m)
      rw [forever.polls (m + 1)] at out
      exact DriverPc.noConfusion out
    obtain ⟨k, counted⟩ := (forever.kept m).kept.exists_isCounted somebody
    have waits' (l : Nat) (after : m ≤ l) := waits l (later.trans after)
    have can (l : Nat) (after : m ≤ l) : (state l).canMove k = true := by
      have here := (forever.still waits' after).2 k counted
      have unlocked := (forever.still waits (later.trans after)).1.trans held
      rw [Drawing.canMove, here, unlocked]
      rfl
    obtain ⟨l, after, mine⟩ := handlers k m can
    have holds := (forever.draws waits' after counted mine).1
    have unlocked := (forever.still waits (later.trans after)).1.trans held
    exact absurd (unlocked.symm.trans holds) (by simp)
  | some who =>
    obtain ⟨k, rfl, found⟩ :=
      drawsNext_polls (forever.polls n) ((forever.kept n).holding who held).1
    have counted : (state n).driver.isCounted k = true :=
      Driver.isCounted_iff.mpr ⟨_, found, rfl⟩
    have can (m : Nat) (later : n ≤ m) : (state m).canMove k = true := by
      obtain ⟨same, stays⟩ := forever.still waits later
      rw [Drawing.canMove, stays k counted, same.trans held, decide_eq_true rfl]
      rfl
    have again (m : Nat) (later : n ≤ m) : ∃ l, m ≤ l ∧ (event l).isDraw = true := by
      obtain ⟨l, after, mine⟩ := handlers k m fun l after => can l (later.trans after)
      refine ⟨l, after, ?_⟩
      rw [(forever.draws waits (later.trans after) counted mine).2.1]
      rfl
    obtain ⟨later, after, free⟩ :=
      (forever.kept n).exists_free held int fair (state n).drawn
    obtain ⟨l, behind, drawn, number⟩ :=
      @exists_tick (fun m => (state m).drawn) (fun m => (event m).isDraw)
        (fun m => drawn_step (forever.runs m)) n later again after
    have draw : event l = .draw := by
      cases taken : event l with
      | plain | lock =>
        rw [taken] at drawn
        exact Bool.noConfusion drawn
      | draw => rfl
    have mine : (state l).moves k (event l) = true := by
      rw [draw]
      exact decide_eq_true ((forever.still waits behind).1.trans held)
    have used := of_decide_eq_true (forever.draws waits behind counted mine).2.2
    rw [forever.bp waits held behind, number] at used
    exact free used

end

/-- In every run that does not end, in which the loops of `bp_add(-1)` are cut into their draws: if
the numbers come to every entry again and again, and neither a handler that could always take its
next step nor a control thread that goes on polling is left aside for ever, then `bp_clean` returns,
and nobody is counted then. -/
theorem stop_returns (random : Nat → BitVec 32) (text : Memory) (wp : WpTable)
    (history : List DrawingEvent) (state : Nat → Drawing) (event : Nat → DrawingEvent)
    (next : Option StartArgs)
    (reached : run (drawingStep random) (loadDrawing text wp) history = some (state 0))
    (polls : (state 0).driver.control = .poll next) (runs : Runs (drawingStep random) state event)
    (int : (state 0).driver.shared.bp.bpCount < 2 ^ 31)
    (fair : FairDraws (state 0).driver.shared.bp.bpCount.toNat random)
    (handlers : ∀ k n, (∀ m, n ≤ m → (state m).canMove k = true) →
      ∃ m, n ≤ m ∧ (state m).moves k (event m) = true)
    (control : ∀ n, (∀ m, n ≤ m → (state m).driver.control = .poll next) →
      ∃ m, n ≤ m ∧ (event m).isControl = true) :
    ∃ n, (∀ m, m ≤ n → (state m).driver.control = .poll next) ∧
      (state (n + 1)).driver.control = .wpClean next ∧
      ∀ pc ∈ (state (n + 1)).driver.handlers, pc.inFlight = false := by
  have kept : ∀ n, DrawingKept (state n) :=
    runs.invariant (fun _ _ _ => DrawingKept.step) (DrawingKept.ofReached reached)
  have falls : (∀ n, (state n).driver.control = .poll next) → ∀ n, ∃ m, n ≤ m ∧
      (state (m + 1)).leftBelow (state 0).driver.handlers.length <
        (state m).leftBelow (state 0).driver.handlers.length := by
    intro always n
    have forever : PollsForever random next state event := ⟨runs, kept, always⟩
    have number (m : Nat) : (state m).driver.shared.bp.bpCount =
        (state 0).driver.shared.bp.bpCount := by
      induction m with
      | zero => rfl
      | succ m ih => exact ((kept m).polled (always m) (runs m)).1.trans ih
    have old (m k : Nat) (counted : (state m).driver.isCounted k = true) :
        (state 0).driver.isCounted k = true := by
      induction m with
      | zero => exact counted
      | succ m ih => exact ih (((kept m).fewer (always m) (runs m) k).2 counted)
    obtain ⟨m, later, k, advances⟩ := forever.advances ((number n).trans_lt int)
      (number n ▸ fair) handlers fun n => control n fun m _ => always m
    have less := ((kept m).fewer (always m) (runs m) k).1
    rw [advances, Bool.toNat_true] at less
    have counted : (state m).driver.isCounted k = true := by
      rw [Drawing.advances, Bool.and_assoc] at advances
      exact (Bool.and_eq_true_iff.mp advances).1
    refine ⟨m, later, leftBelow_lt (fun j => ?_) (isCounted_lt (old m k counted)) (by omega)⟩
    exact (Nat.le_add_left _ _).trans ((kept m).fewer (always m) (runs m) j).1
  have ended := @leaves_of_rank _ state (fun s => s.driver.control = .poll next)
    (fun s => s.leftBelow (state 0).driver.handlers.length)
    (fun n here _ => Finset.sum_le_sum fun k _ =>
      (Nat.le_add_left _ _).trans ((kept n).fewer here (runs n) k).1) falls
  obtain ⟨n, before, out⟩ :=
    @exists_last _ state (fun s => s.driver.control = .poll next) polls ended
  have left : (state (n + 1)).driver.control = .wpClean next :=
    ((kept n).polled (before n le_rfl) (runs n)).2.elim (fun stay => absurd stay out) (·.1)
  refine ⟨n, before, left, ((kept (n + 1)).kept.invariant.quiesced ?_).still⟩
  rw [Driver.closed, left]

/-- The handler draws and returns, `stop` returns, and nothing is served after that. -/
def goOn : List DrawingEvent :=
  [.lock (.handler 0), .plain (.control []), .draw, .plain (.handler 0 .tick),
    .plain (.control []), .plain (.control []), .plain (.control [])]

/-- A `stop` that begins while a handler is counted returns in a run without an end. -/
theorem stop_returns_alone :
    ∃ (s : Drawing) (state : Nat → Drawing) (event : Nat → DrawingEvent),
      run (drawingStep (BitVec.ofNat 32)) (loadDrawing noops .loaded) stopWhileCounted = some s ∧
      state 0 = s ∧ s.driver.handlers = [.rearmLock] ∧
      Runs (drawingStep (BitVec.ofNat 32)) state event ∧
      ∃ n, (∀ m, m ≤ n → (state m).driver.control = .poll none) ∧
        (state (n + 1)).driver.control = .wpClean none ∧
        ∀ pc ∈ (state (n + 1)).driver.handlers, pc.inFlight = false := by
  obtain ⟨s, t, reached, ran, counted, polls, one, finished, idle, stays⟩ : ∃ s t,
      run (drawingStep (BitVec.ofNat 32)) (loadDrawing noops .loaded) stopWhileCounted = some s ∧
      run (drawingStep (BitVec.ofNat 32)) s goOn = some t ∧ s.driver.handlers = [.rearmLock] ∧
      s.driver.control = .poll none ∧ s.driver.shared.bp.bpCount = 1 ∧
      t.driver.handlers = [.finished] ∧ t.driver.control = .idle ∧
      drawingStep (BitVec.ofNat 32) t (.plain .stop) = some t :=
    ⟨_, _, rfl, rfl, rfl, rfl, rfl, rfl, rfl, rfl⟩
  obtain ⟨state, event, runs, start, -, last⟩ := exists_runs ran stays
  refine ⟨s, state, event, reached, start, counted, runs, ?_⟩
  refine stop_returns (BitVec.ofNat 32) noops .loaded stopWhileCounted state event none
    (start ▸ reached) (start ▸ polls) runs ?_ ?_ ?_ ?_
  · rw [start, one]
    decide
  · rw [start, one]
    exact fairDraws_one _
  · intro k n forever
    have can := forever (max n 7) (le_max_left n 7)
    rw [last (max n 7) (le_max_right n 7), Drawing.canMove, Driver.isCounted, finished] at can
    cases k <;> contradiction
  · intro n forever
    have polls := forever (max n 7) (le_max_left n 7)
    rw [last (max n 7) (le_max_right n 7), idle] at polls
    exact DriverPc.noConfusion polls

end Drddr
