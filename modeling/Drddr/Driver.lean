import Drddr.Int3.Handler
import Drddr.Machine.Pool
import Drddr.Machine.Run

/-!
# Starting and stopping

Control writes are served one at a time, while any number of breakpoint handlers run. `stop`
waits in `bp_clean` for the handlers that are counted; `start` rewrites the breakpoint table
in `bp_init` without taking the lock, so each of its writes is a step of its own. Between the
return of `bp_clean` and the end of the next `bp_init` no handler is counted.
-/

namespace Drddr

open Machine

/-- What `start` reads of the module's parameters. -/
structure StartArgs where
  address : Nat → Word
  addresscnt : Nat
  param : Int

/-- The arguments of the calls of `bp_add` in `start`. -/
def startChoices (args : StartArgs) : List Int :=
  if args.param = -1 then
    if 0 < args.addresscnt then [0] else []
  else if args.param ≤ -2 ∧ -65536 ≤ args.param then
    let stride := args.param.natAbs
    (List.range ((args.addresscnt + stride - 1) / stride)).map fun j => ((j * stride : Nat) : Int)
  else List.replicate args.param.toNat (-1)

/-- Where the thread that serves control writes is. -/
inductive DriverPc where
  /-- No write is being served. -/
  | idle
  /-- In `stop`, before the locked section of `bp_clean`; `next` is the `start` that called it. -/
  | clean (next : Option StartArgs)
  /-- In `bp_clean`, before a read of `bp_trap_count`. -/
  | poll (next : Option StartArgs)
  /-- In `stop`, before `wp_clean`. -/
  | wpClean (next : Option StartArgs)
  /-- In `stop`, before `running` is cleared. -/
  | halt (next : Option StartArgs)
  /-- In `start`, before its own `wp_clean`. -/
  | startClean (args : StartArgs)
  /-- In `bp_init`, before the write of `bp_count`. -/
  | initCount (args : StartArgs)
  /-- In `bp_init`, before the test of the loop and the write of `bp_addr[i]`. -/
  | initAddr (args : StartArgs) (i : Nat)
  /-- In `bp_init`, before the write of `bp_state[i]`. -/
  | initState (args : StartArgs) (i : Nat)
  /-- In `bp_init`, before the reset of `bp_stopping`. -/
  | initStopping (args : StartArgs)
  /-- In `start`, before a call of `bp_add` and its read of `bp_stopping`. -/
  | adding (choices : List Int)
  /-- In `bp_add`, before its locked section. -/
  | addLocked (choice : Int) (choices : List Int)
  /-- In `start`, before `running` is set. -/
  | launch

/-- The shared state, the handlers so far and the control thread. -/
structure Driver where
  shared : Shared
  handlers : List HandlerPc
  running : Bool
  control : DriverPc

/-- An atomic step of some thread. -/
inductive DriverEvent where
  /-- A processor executes a breakpoint instruction. -/
  | trap (ip : Word)
  /-- The handler at a position takes its next step. -/
  | handler (k : Nat) (input : HandlerInput)
  /-- A control write begins. -/
  | start (args : StartArgs)
  | stop
  /-- The control thread takes its next step, with results of `random32`. -/
  | control (draws : List (BitVec 32))

/-- The next step of the control thread. -/
def controlStep (g : Shared) (running : Bool) (draws : List (BitVec 32)) :
    DriverPc → Option (Shared × Bool × DriverPc)
  | .idle => none
  | .clean next => some ({ g with bp := g.bp.bpCleanLocked }, running, .poll next)
  | .poll next =>
    if g.bp.bpTrapCount = 0 then some (g, running, .wpClean next) else some (g, running, .poll next)
  | .wpClean next => some ({ g with wp := g.wp.wpClean }, running, .halt next)
  | .halt none => some (g, false, .idle)
  | .halt (some args) => some (g, false, .startClean args)
  | .startClean args => some ({ g with wp := g.wp.wpClean }, running, .initCount args)
  | .initCount args =>
    some ({ g with bp := { g.bp with bpCount := args.addresscnt } }, running, .initAddr args 0)
  | .initAddr args i =>
    if i < args.addresscnt then
      some ({ g with bp := { g.bp with
        bpAddr := Function.update g.bp.bpAddr i (args.address i) } }, running, .initState args i)
    else some ({ g with bp := { g.bp with bpTrapCount := 0 } }, running, .initStopping args)
  | .initState args i =>
    some ({ g with bp := { g.bp with
      bpState := Function.update g.bp.bpState i .UNUSED } }, running, .initAddr args (i + 1))
  | .initStopping args =>
    some ({ g with bp := { g.bp with bpStopping := false } }, running, .adding (startChoices args))
  | .adding [] => some (g, running, .launch)
  | .adding (choice :: choices) =>
    if g.bp.bpStopping then some (g, running, .adding choices)
    else some (g, running, .addLocked choice choices)
  | .addLocked choice choices =>
    (g.bp.bpAddLocked choice draws).map fun (_, bp, _) => ({ g with bp }, running, .adding choices)
  | .launch => some (g, true, .idle)

/-- Everything a step of the control thread can do. -/
inductive ControlMove (g : Shared) (running : Bool) : DriverPc → Shared → Bool → DriverPc → Prop
  where
  /-- The locked section of `bp_clean`. -/
  | clean (next : Option StartArgs) :
      ControlMove g running (.clean next) { g with bp := g.bp.bpCleanLocked } running (.poll next)
  /-- `bp_clean` reads no trap in flight. -/
  | drained (next : Option StartArgs) (zero : g.bp.bpTrapCount = 0) :
      ControlMove g running (.poll next) g running (.wpClean next)
  /-- It reads some. -/
  | wait (next : Option StartArgs) : ControlMove g running (.poll next) g running (.poll next)
  | wpClean (next : Option StartArgs) :
      ControlMove g running (.wpClean next) { g with wp := g.wp.wpClean } running (.halt next)
  /-- `stop` returns. -/
  | stopped : ControlMove g running (.halt none) g false .idle
  /-- `stop` returns to `start`. -/
  | restart (args : StartArgs) :
      ControlMove g running (.halt (some args)) g false (.startClean args)
  | startClean (args : StartArgs) :
      ControlMove g running (.startClean args) { g with wp := g.wp.wpClean } running
        (.initCount args)
  | initCount (args : StartArgs) :
      ControlMove g running (.initCount args)
        { g with bp := { g.bp with bpCount := args.addresscnt } } running (.initAddr args 0)
  | initAddr (args : StartArgs) (i : Nat) (inside : i < args.addresscnt) :
      ControlMove g running (.initAddr args i)
        { g with bp := { g.bp with bpAddr := Function.update g.bp.bpAddr i (args.address i) } }
        running (.initState args i)
  /-- The loop of `bp_init` ends. -/
  | initDone (args : StartArgs) (i : Nat) (outside : ¬i < args.addresscnt) :
      ControlMove g running (.initAddr args i) { g with bp := { g.bp with bpTrapCount := 0 } }
        running (.initStopping args)
  | initState (args : StartArgs) (i : Nat) :
      ControlMove g running (.initState args i)
        { g with bp := { g.bp with bpState := Function.update g.bp.bpState i .UNUSED } } running
        (.initAddr args (i + 1))
  | initStopping (args : StartArgs) :
      ControlMove g running (.initStopping args)
        { g with bp := { g.bp with bpStopping := false } } running (.adding (startChoices args))
  /-- The loops of `start` end. -/
  | added : ControlMove g running (.adding []) g running .launch
  /-- `bp_add` reads the flag. -/
  | shut (choice : Int) (choices : List Int) (flag : g.bp.bpStopping = true) :
      ControlMove g running (.adding (choice :: choices)) g running (.adding choices)
  | lock (choice : Int) (choices : List Int) (flag : g.bp.bpStopping = false) :
      ControlMove g running (.adding (choice :: choices)) g running (.addLocked choice choices)
  /-- The locked section of `bp_add`. -/
  | add (choice : Int) (choices : List Int) (ok : Bool) (bp : Bp) (draws rest : List (BitVec 32))
      (added : g.bp.bpAddLocked choice draws = some (ok, bp, rest)) :
      ControlMove g running (.addLocked choice choices) { g with bp } running (.adding choices)
  | launch : ControlMove g running .launch g true .idle

/-- Every step of the control thread is one of the listed moves. -/
theorem controlStep_move {g g' : Shared} {running running' : Bool} {pc pc' : DriverPc}
    {draws : List (BitVec 32)}
    (moved : controlStep g running draws pc = some (g', running', pc')) :
    ControlMove g running pc g' running' pc' := by
  unfold controlStep at moved
  split at moved
  · contradiction
  · cases moved
    exact .clean _
  · split at moved
    · rename_i zero
      cases moved
      exact .drained _ zero
    · cases moved
      exact .wait _
  · cases moved
    exact .wpClean _
  · cases moved
    exact .stopped
  · cases moved
    exact .restart _
  · cases moved
    exact .startClean _
  · cases moved
    exact .initCount _
  · split at moved
    · rename_i inside
      cases moved
      exact .initAddr _ _ inside
    · rename_i outside
      cases moved
      exact .initDone _ _ outside
  · cases moved
    exact .initState _ _
  · cases moved
    exact .initStopping _
  · cases moved
    exact .added
  · split at moved
    · rename_i flag
      cases moved
      exact .shut _ _ flag
    · rename_i flag
      cases moved
      exact .lock _ _ (Bool.eq_false_of_not_eq_true flag)
  · obtain ⟨⟨ok, bp, rest⟩, added, same⟩ := Option.map_eq_some_iff.mp moved
    cases same
    exact .add _ _ ok bp _ rest added
  · cases moved
    exact .launch

/-- Run one atomic step. -/
def driverStep (s : Driver) : DriverEvent → Option Driver
  | .trap ip => some { s with handlers := s.handlers ++ [.trapped ip] }
  | .handler k input =>
    (poolStep handlerStep s.shared s.handlers k input).map fun (shared, handlers) =>
      { s with shared, handlers }
  | .start args =>
    match s.control with
    | .idle => some { s with control := if s.running then .clean (some args) else .startClean args }
    | _ => none
  | .stop =>
    match s.control with
    | .idle => some { s with control := if s.running then .clean none else .idle }
    | _ => none
  | .control draws =>
    (controlStep s.shared s.running draws s.control).map fun (shared, running, control) =>
      { s with shared, running, control }

/-- The state in which the module has been loaded. -/
def loadDriver (text : Memory) (wp : WpTable) : Driver :=
  ⟨⟨.loaded text, wp.wpInit⟩, [], false, .idle⟩

/-! ## The closed phase -/

/-- Between the return of `bp_clean` and the last write of the next `bp_init`; also before
the first `bp_init`. -/
def Driver.closed (s : Driver) : Bool :=
  match s.control with
  | .idle => !s.running
  | .wpClean _ | .halt _ | .startClean _ | .initCount _ | .initAddr _ _ | .initState _ _
  | .initStopping _ => true
  | _ => false

/-- The closed phase from the `wp_clean` of `stop` on. -/
def Driver.wpClosed (s : Driver) : Bool :=
  match s.control with
  | .wpClean _ => false
  | _ => s.closed

/-- Nothing is counted and nothing can be: the flag is set, or nothing was ever planted. -/
structure Quiesced (bp : Bp) (handlers : List HandlerPc) : Prop where
  still : ∀ pc ∈ handlers, pc.inFlight = false
  shut : bp.bpStopping = true ∨
    (∀ i, bp.bpState i ≠ .USING) ∧ ∀ pc ∈ handlers, pc.isRemoved = false

/-- What every step of every thread keeps. -/
structure DriverInvariant (s : Driver) : Prop where
  /-- The trap count counts. -/
  count : s.shared.bp.bpTrapCount = s.handlers.countP (·.inFlight)
  /-- `bp_clean` polls with the flag set. -/
  polling : ∀ next, s.control = .poll next → s.shared.bp.bpStopping = true
  /-- The closed phase is quiet. -/
  quiesced : s.closed = true → Quiesced s.shared.bp s.handlers
  /-- After `wp_clean` no slot is in use. -/
  free : s.wpClosed = true → ∀ i, s.shared.wp.wpUsage i = false

/-- `wp_clean` runs in the closed phase. -/
theorem Driver.closed_of_wpClosed {s : Driver} (closed : s.wpClosed = true) : s.closed = true := by
  unfold Driver.wpClosed at closed
  split at closed
  · contradiction
  · exact closed

/-- Outside the closed phase and the polls of `bp_clean` only the count is at stake. -/
theorem DriverInvariant.ofOpen {s : Driver}
    (count : s.shared.bp.bpTrapCount = s.handlers.countP (·.inFlight))
    (notPolling : ∀ next, s.control ≠ .poll next) (isOpen : s.closed = false) :
    DriverInvariant s := by
  have notClosed : s.closed ≠ true := by
    rw [isOpen]
    exact Bool.false_ne_true
  constructor
  · exact count
  · intro next polls
    exact absurd polls (notPolling next)
  · intro closed
    exact absurd closed notClosed
  · intro closed
    exact absurd (Driver.closed_of_wpClosed closed) notClosed

/-- In the closed phase nobody polls. -/
theorem DriverInvariant.ofClosed {s : Driver}
    (count : s.shared.bp.bpTrapCount = s.handlers.countP (·.inFlight))
    (quiet : Quiesced s.shared.bp s.handlers) (free : ∀ i, s.shared.wp.wpUsage i = false)
    (notPolling : ∀ next, s.control ≠ .poll next) : DriverInvariant s := by
  constructor
  · exact count
  · intro next polls
    exact absurd polls (notPolling next)
  · intro _
    exact quiet
  · intro _
    exact free

/-! ## Handler steps -/

/-- The weight of a handler: one if it is counted, zero otherwise. -/
def HandlerPc.weight (pc : HandlerPc) : Int := if pc.inFlight then 1 else 0

/-- When one handler is replaced, the number of counted ones changes by the difference of their
weights. -/
theorem countP_replace (before after : List HandlerPc) (pc pc' : HandlerPc) :
    ((before ++ pc' :: after).countP (·.inFlight) : Int) =
      (before ++ pc :: after).countP (·.inFlight) + (pc'.weight - pc.weight) :=
  countP_replaced (·.inFlight) before after pc pc'

/-- A handler step changes the trap count by what it changes the number of counted handlers,
and leaves the flag alone. -/
theorem HandlerEffect.flags {g g' : Shared} {pc pc' : HandlerPc}
    (effect : HandlerEffect g pc g' pc') :
    g'.bp.bpTrapCount = g.bp.bpTrapCount + (pc'.weight - pc.weight) ∧
      g'.bp.bpStopping = g.bp.bpStopping := by
  cases effect with
  | quiet wp same counted removed =>
    have equal : pc.weight = pc'.weight := by rw [HandlerPc.weight, same]; rfl
    exact ⟨by simp [equal], rfl⟩
  | removed a i found => exact ⟨(Int.add_zero _).symm, rfl⟩
  | missed a absent => exact ⟨(Int.add_zero _).symm, rfl⟩
  | counted a open' => exact ⟨rfl, rfl⟩
  | readded ok bp draws rest added =>
    have kept := Bp.bpAddLocked_flags added
    exact ⟨kept.1.trans (Int.add_zero _).symm, kept.2⟩
  | left => exact ⟨rfl, rfl⟩

/-- In the closed phase a handler step counts nobody and takes no watchpoint. -/
theorem HandlerEffect.quiesced {g g' : Shared} {pc pc' : HandlerPc} {before after : List HandlerPc}
    (effect : HandlerEffect g pc g' pc') (quiet : Quiesced g.bp (before ++ pc :: after)) :
    Quiesced g'.bp (before ++ pc' :: after) ∧ g'.wp = g.wp := by
  have mine : pc.inFlight = false := quiet.still pc (by simp)
  have rest (still : pc'.inFlight = false) :
      ∀ other ∈ before ++ pc' :: after, other.inFlight = false := forall_replaced quiet.still still
  cases effect with
  | quiet wp same counted removed =>
    refine ⟨⟨rest (same ▸ mine), ?_⟩, counted mine⟩
    cases quiet.shut with
    | inl stopping => exact .inl stopping
    | inr fresh => exact .inr ⟨fresh.1, forall_replaced fresh.2 removed⟩
  | removed a i found =>
    refine ⟨⟨rest rfl, ?_⟩, rfl⟩
    cases quiet.shut with
    | inl stopping => exact .inl stopping
    | inr fresh => exact absurd (Bp.findArmed_eq_some.mp found).1.2 (fresh.1 i)
  | missed a absent =>
    refine ⟨⟨rest rfl, ?_⟩, rfl⟩
    cases quiet.shut with
    | inl stopping => exact .inl stopping
    | inr fresh => exact .inr ⟨fresh.1, forall_replaced fresh.2 rfl⟩
  | counted a open' =>
    -- The flag is clear, so nothing was ever planted, so nobody has removed anything.
    cases quiet.shut with
    | inl stopping => exact absurd (open'.symm.trans stopping) (by decide)
    | inr fresh =>
      have uncounted := fresh.2 (.removed a) (by simp)
      exact Bool.noConfusion uncounted
  | readded ok bp draws rest added => exact Bool.noConfusion mine
  | left => exact Bool.noConfusion mine

/-- A handler step keeps the invariant. -/
theorem DriverInvariant.handler {s : Driver} {g : Shared} {handlers : List HandlerPc} {k : Nat}
    {input : HandlerInput} (inv : DriverInvariant s)
    (moved : poolStep handlerStep s.shared s.handlers k input = some (g, handlers)) :
    DriverInvariant { s with shared := g, handlers := handlers } := by
  obtain ⟨before, pc, pc', after, -, split, rfl, act⟩ := poolStep_cases moved
  have effect := handlerStep_effect act
  have flags := effect.flags
  have count := inv.count
  rw [split] at count
  constructor
  · rw [countP_replace before after pc pc', ← count]
    exact flags.1
  · intro next polls
    exact flags.2.trans (inv.polling next polls)
  · intro closed
    have quiet := inv.quiesced closed
    rw [split] at quiet
    exact (effect.quiesced quiet).1
  · intro closed i
    have quiet := inv.quiesced (Driver.closed_of_wpClosed closed)
    rw [split] at quiet
    have same : g.wp = s.shared.wp := (effect.quiesced quiet).2
    rw [same]
    exact inv.free closed i

/-! ## Control steps -/

/-- With the trap count zero nobody is counted. -/
theorem none_inFlight {handlers : List HandlerPc}
    (zero : (handlers.countP (·.inFlight) : Int) = 0) : ∀ pc ∈ handlers, pc.inFlight = false := by
  have nobody : handlers.countP (·.inFlight) = 0 := by exact_mod_cast zero
  intro pc member
  exact Bool.eq_false_of_not_eq_true (List.countP_eq_zero.mp nobody pc member)

/-- Nobody is counted in the closed phase, so resetting the trap count loses nothing. -/
theorem Quiesced.count {bp : Bp} {handlers : List HandlerPc} (quiet : Quiesced bp handlers) :
    (handlers.countP (·.inFlight) : Int) = 0 := by
  have nobody : handlers.countP (·.inFlight) = 0 :=
    List.countP_eq_zero.mpr fun pc member => by simp [quiet.still pc member]
  exact_mod_cast nobody

/-- A table with the same flag and no more armed entries is as quiet. -/
theorem Quiesced.congr {bp bp' : Bp} {handlers : List HandlerPc} (quiet : Quiesced bp handlers)
    (flag : bp'.bpStopping = bp.bpStopping)
    (state : ∀ i, bp'.bpState i = .USING → bp.bpState i = .USING) : Quiesced bp' handlers := by
  refine ⟨quiet.still, ?_⟩
  cases quiet.shut with
  | inl stopping => exact .inl (flag.trans stopping)
  | inr fresh => exact .inr ⟨fun i used => fresh.1 i (state i used), fresh.2⟩

/-- A step of the control thread keeps the invariant. -/
theorem DriverInvariant.control {s : Driver} {g : Shared} {running : Bool} {pc : DriverPc}
    {draws : List (BitVec 32)} (inv : DriverInvariant s)
    (moved : controlStep s.shared s.running draws s.control = some (g, running, pc)) :
    DriverInvariant { s with shared := g, running := running, control := pc } := by
  obtain ⟨shared, handlers, wasRunning, control⟩ := s
  have count := inv.count
  cases controlStep_move moved with
  | clean next =>
    exact ⟨Bp.bpCleanLocked_bpTrapCount.trans count, fun _ _ => rfl, fun closed => by contradiction,
      fun closed => by contradiction⟩
  | drained next zero =>
    have still := none_inFlight (count.symm.trans zero)
    exact ⟨count, fun _ polls => by contradiction,
      fun _ => ⟨still, .inl (inv.polling next rfl)⟩, fun closed => by contradiction⟩
  | wait next =>
    exact ⟨count, fun _ _ => inv.polling next rfl, fun closed => by contradiction,
      fun closed => by contradiction⟩
  | wpClean next => exact .ofClosed count (inv.quiesced rfl) (fun _ => rfl) fun _ => nofun
  | stopped => exact .ofClosed count (inv.quiesced rfl) (inv.free rfl) fun _ => nofun
  | restart args => exact .ofClosed count (inv.quiesced rfl) (inv.free rfl) fun _ => nofun
  | startClean args => exact .ofClosed count (inv.quiesced rfl) (fun _ => rfl) fun _ => nofun
  | initCount args =>
    have quiet : Quiesced shared.bp handlers := inv.quiesced rfl
    exact .ofClosed count (quiet.congr rfl fun _ used => used) (inv.free rfl) fun _ => nofun
  | initAddr args i inside =>
    have quiet : Quiesced shared.bp handlers := inv.quiesced rfl
    exact .ofClosed count (quiet.congr rfl fun _ used => used) (inv.free rfl) fun _ => nofun
  | initDone args i outside =>
    have quiet : Quiesced shared.bp handlers := inv.quiesced rfl
    exact .ofClosed quiet.count.symm (quiet.congr rfl fun _ used => used) (inv.free rfl)
      fun _ => nofun
  | initState args i =>
    have quiet : Quiesced shared.bp handlers := inv.quiesced rfl
    have state (k : Nat) (used : Function.update shared.bp.bpState i .UNUSED k = .USING) :
        shared.bp.bpState k = .USING := by
      by_cases same : k = i
      · subst same
        simp at used
      · rwa [Function.update_of_ne same] at used
    exact .ofClosed count (quiet.congr rfl state) (inv.free rfl) fun _ => nofun
  | initStopping args => exact .ofOpen count (fun _ => nofun) rfl
  | added => exact .ofOpen count (fun _ => nofun) rfl
  | shut choice choices flag => exact .ofOpen count (fun _ => nofun) rfl
  | lock choice choices flag => exact .ofOpen count (fun _ => nofun) rfl
  | add choice choices ok bp draws rest added =>
    exact .ofOpen ((Bp.bpAddLocked_flags added).1.trans count) (fun _ => nofun) rfl
  | launch => exact .ofOpen count (fun _ => nofun) rfl

/-! ## Every run -/

/-- Every step of every thread keeps the invariant. -/
theorem DriverInvariant.step {s t : Driver} {event : DriverEvent} (inv : DriverInvariant s)
    (stepped : driverStep s event = some t) : DriverInvariant t := by
  cases event with
  | trap ip =>
    cases Option.some.inj stepped
    have grown : (s.handlers ++ [HandlerPc.trapped ip]).countP (·.inFlight) =
        s.handlers.countP (·.inFlight) := by
      have outside : [HandlerPc.trapped ip].countP (·.inFlight) = 0 := rfl
      rw [List.countP_append, outside, Nat.add_zero]
    have arrives {pc : HandlerPc} (member : pc ∈ s.handlers ++ [.trapped ip]) :
        pc ∈ s.handlers ∨ pc = .trapped ip := by
      simpa using member
    refine ⟨by rw [grown]; exact inv.count, inv.polling, fun closed => ?_, inv.free⟩
    have quiet : Quiesced s.shared.bp s.handlers := inv.quiesced closed
    refine ⟨fun pc member => ?_, ?_⟩
    · cases arrives member with
      | inl old => exact quiet.still pc old
      | inr new => exact new ▸ rfl
    · cases quiet.shut with
      | inl stopping => exact .inl stopping
      | inr fresh =>
        refine .inr ⟨fresh.1, fun pc member => ?_⟩
        cases arrives member with
        | inl old => exact fresh.2 pc old
        | inr new => exact new ▸ rfl
  | handler k input =>
    obtain ⟨⟨g, handlers⟩, moved, rfl⟩ := Option.map_eq_some_iff.mp stepped
    exact inv.handler moved
  | start args =>
    obtain ⟨shared, handlers, running, control⟩ := s
    cases control with
    | idle =>
      cases Option.some.inj stepped
      cases running with
      | true =>
        exact .ofOpen inv.count (fun _ => nofun) rfl
      | false =>
        exact .ofClosed inv.count (inv.quiesced rfl) (inv.free rfl) fun _ => nofun
    | _ => contradiction
  | stop =>
    obtain ⟨shared, handlers, running, control⟩ := s
    cases control with
    | idle =>
      cases Option.some.inj stepped
      cases running with
      | true =>
        exact .ofOpen inv.count (fun _ => nofun) rfl
      | false =>
        exact .ofClosed inv.count (inv.quiesced rfl) (inv.free rfl) fun _ => nofun
    | _ => contradiction
  | control draws =>
    obtain ⟨⟨g, running, pc⟩, moved, rfl⟩ := Option.map_eq_some_iff.mp stepped
    exact inv.control moved

/-- The loop of `bp_init`, one write at a time. -/
theorem bpInit_writes (s : Driver) (args : StartArgs) (here : s.control = .initCount args)
    (n : Nat) (le : n ≤ args.addresscnt) :
    run driverStep s (List.replicate (2 * n + 1) (.control [])) = some { s with
      shared := { s.shared with
        bp := (List.range n).foldl (fun bp i => bp.bpInitEntry i (args.address i))
          { s.shared.bp with bpCount := args.addresscnt } }
      control := .initAddr args n } := by
  induction n with
  | zero => simp [run, driverStep, controlStep, here]
  | succ n ih =>
    have inside : n < args.addresscnt := le
    have longer : List.replicate (2 * (n + 1) + 1) (DriverEvent.control []) =
        List.replicate (2 * n + 1) (.control []) ++ [.control [], .control []] := by
      rw [show 2 * (n + 1) + 1 = 2 * n + 1 + 2 by omega, List.replicate_add]
      rfl
    rw [longer, run_append, ih (by omega), List.range_succ, List.foldl_append]
    simp [run, driverStep, controlStep, inside, Bp.bpInitEntry]

/-- With no handler moving in between, the writes of `bp_init` are the one call. -/
theorem bpInit_undisturbed (s : Driver) (args : StartArgs) (here : s.control = .initCount args) :
    run driverStep s (List.replicate (2 * args.addresscnt + 3) (.control [])) = some { s with
      shared := { s.shared with bp := s.shared.bp.bpInit args.address args.addresscnt }
      control := .adding (startChoices args) } := by
  have longer : List.replicate (2 * args.addresscnt + 3) (DriverEvent.control []) =
      List.replicate (2 * args.addresscnt + 1) (.control []) ++ [.control [], .control []] := by
    rw [show 2 * args.addresscnt + 3 = 2 * args.addresscnt + 1 + 2 by omega, List.replicate_add]
    rfl
  rw [longer, run_append, bpInit_writes s args here _ le_rfl]
  simp [run, driverStep, controlStep, Bp.bpInit]

/-- The invariant holds when the module has been loaded. -/
theorem driverInvariant_load (text : Memory) (wp : WpTable) :
    DriverInvariant (loadDriver text wp) := by
  have nobody (P : HandlerPc → Prop) : ∀ pc ∈ ([] : List HandlerPc), P pc := by simp
  constructor
  · rfl
  · intro next polls
    contradiction
  · intro _
    exact ⟨nobody _, .inr ⟨fun i used => by contradiction, nobody _⟩⟩
  · intro _ i
    rfl

/-- In every state of every run, the trap count is the number of counted handlers; from the
return of `bp_clean` to the end of the next `bp_init` no handler is counted; and from the
`wp_clean` of `stop` on no watchpoint slot is in use either. -/
theorem driver_quiescent (text : Memory) (wp : WpTable) (events : List DriverEvent) (s : Driver)
    (ran : run driverStep (loadDriver text wp) events = some s) :
    s.shared.bp.bpTrapCount = s.handlers.countP (·.inFlight) ∧
      (s.closed = true → ∀ pc ∈ s.handlers, pc.inFlight = false) ∧
      (s.wpClosed = true → ∀ i, s.shared.wp.wpUsage i = false) := by
  have inv : DriverInvariant s :=
    run_invariant (fun _ _ _ => DriverInvariant.step) (driverInvariant_load text wp) ran
  exact ⟨inv.count, fun closed => (inv.quiesced closed).still, inv.free⟩

/-- The arguments of a `start` that lists one address and plants it. -/
def oneAddress : StartArgs where
  address _ := 0x1000
  addresscnt := 1
  param := -1

/-- A handler is counted before `stop`, which waits for it, and another arrives before the next
`bp_init` is over. -/
def stopAndStart : List DriverEvent :=
  .start oneAddress :: List.replicate 10 (.control []) ++
    [.trap 0x1001, .handler 0 .tick, .handler 0 .tick, .handler 0 .tick, .stop, .control [],
      .control [], .handler 0 (.decoded none), .handler 0 .tick, .handler 0 .tick, .control [],
      .control [], .control [], .start oneAddress, .control [], .control [], .trap 0x1001,
      .handler 1 .tick, .handler 1 .tick]

/-- A run through `stop` and into the next `bp_init`, with a handler that claims a trap. -/
theorem driver_quiescent_restart :
    ∃ s, run driverStep (loadDriver noops .loaded) stopAndStart = some s ∧
      s.handlers = [.finished, .resumed 0x1000] ∧ s.control = .initAddr oneAddress 0 ∧
      s.shared.bp.bpTrapCount = s.handlers.countP (·.inFlight) ∧
      (∀ pc ∈ s.handlers, pc.inFlight = false) ∧ ∀ i, s.shared.wp.wpUsage i = false := by
  refine ⟨_, rfl, rfl, rfl, ?_⟩
  have quiet := driver_quiescent noops .loaded stopAndStart _ rfl
  exact ⟨quiet.1, quiet.2.1 rfl, quiet.2.2 rfl⟩

end Drddr
