import Drddr.Driver

/-!
# Live breakpoints

Between the return of `start` and the next control write, a breakpoint is armed or it is in the
hands of a handler that will arm another one in its place. The two together are as many as
`start` armed, so a handler that comes to `bp_add(-1)` always finds an entry to arm.
-/

namespace Drddr

open Machine

/-- A handler is between its successful `bp_remove` and the locked section of its `bp_add(-1)`. -/
def HandlerPc.displaced : HandlerPc → Bool
  | .removed _ | .diverted _ | .watching _ | .watched _ | .rearm | .rearmLock => true
  | _ => false

/-- No control write begins. -/
def DriverEvent.isHandlers : DriverEvent → Bool
  | .trap _ | .handler _ _ => true
  | _ => false

/-! ## The open phase -/

/-- From the reset of `bp_stopping` in `bp_init` to the next `stop`. -/
def Driver.launched (s : Driver) : Bool :=
  match s.control with
  | .idle => s.running
  | .clean _ | .adding _ | .addLocked _ _ | .launch => true
  | _ => false

/-- In the open phase the flag is clear; the count is never negative. -/
structure Launched (s : Driver) : Prop where
  count : 0 ≤ s.shared.bp.bpCount
  stopping : s.launched = true → s.shared.bp.bpStopping = false

/-- No step of a handler changes the list. -/
theorem HandlerEffect.sameList {g g' : Shared} {pc pc' : HandlerPc} (count : 0 ≤ g.bp.bpCount)
    (effect : HandlerEffect g pc g' pc') : g.bp.SameList g'.bp := by
  cases effect with
  | quiet | missed | counted | left => exact ⟨rfl, rfl, fun _ _ => rfl⟩
  | removed a i found =>
    exact Bp.sameList_set (Bp.findArmed_eq_some.mp found).1.1 rfl rfl rfl
  | readded ok bp draws rest added => exact Bp.sameList_bpAddLocked count added

/-- The control thread opens the phase with the flag clear, and closes it before it sets the
flag. -/
theorem Launched.control {s : Driver} {g : Shared} {running : Bool} {pc : DriverPc}
    {draws : List (BitVec 32)} (inv : Launched s)
    (moved : controlStep s.shared s.running draws s.control = some (g, running, pc)) :
    Launched { s with shared := g, running := running, control := pc } := by
  obtain ⟨shared, handlers, wasRunning, control⟩ := s
  have count := inv.count
  cases controlStep_move moved with
  | clean next =>
    have list : shared.bp.SameList shared.bp.bpCleanLocked := Bp.sameList_bpCleanLocked
    exact ⟨count.trans_eq list.count.symm, fun opened => absurd opened Bool.false_ne_true⟩
  | drained | wait | wpClean | stopped | restart | startClean | initAddr | initDone | initState =>
    exact ⟨count, fun opened => absurd opened Bool.false_ne_true⟩
  | initCount args =>
    exact ⟨Int.natCast_nonneg args.addresscnt, fun opened => absurd opened Bool.false_ne_true⟩
  | initStopping args => exact ⟨count, fun _ => rfl⟩
  | added | shut | lock | launch => exact ⟨count, fun _ => inv.stopping rfl⟩
  | add choice choices ok bp draws rest added =>
    have list := Bp.sameList_bpAddLocked count added
    exact ⟨count.trans_eq list.count.symm, fun _ =>
      (Bp.bpAddLocked_flags added).2.trans (inv.stopping rfl)⟩

/-- Every step keeps it so that the flag is clear in the open phase and the count not negative. -/
theorem Launched.step {s t : Driver} {event : DriverEvent} (inv : Launched s)
    (stepped : driverStep s event = some t) : Launched t := by
  cases event with
  | trap ip =>
    cases Option.some.inj stepped
    exact ⟨inv.count, inv.stopping⟩
  | handler k input =>
    obtain ⟨⟨g, handlers⟩, moved, rfl⟩ := Option.map_eq_some_iff.mp stepped
    obtain ⟨-, pc, pc', -, -, -, -, act⟩ := poolStep_cases moved
    have effect := handlerStep_effect act
    have list : s.shared.bp.SameList g.bp := effect.sameList inv.count
    exact ⟨inv.count.trans_eq list.count.symm,
      fun launched => effect.flags.2.trans (inv.stopping launched)⟩
  | start args =>
    obtain ⟨shared, handlers, running, control⟩ := s
    cases control with
    | idle =>
      cases Option.some.inj stepped
      cases running with
      | true => exact ⟨inv.count, fun _ => inv.stopping rfl⟩
      | false => exact ⟨inv.count, nofun⟩
    | _ => contradiction
  | stop =>
    obtain ⟨shared, handlers, running, control⟩ := s
    cases control with
    | idle =>
      cases Option.some.inj stepped
      cases running with
      | true => exact ⟨inv.count, fun _ => inv.stopping rfl⟩
      | false => exact ⟨inv.count, nofun⟩
    | _ => contradiction
  | control draws =>
    obtain ⟨⟨g, running, pc⟩, moved, rfl⟩ := Option.map_eq_some_iff.mp stepped
    exact inv.control moved

/-- The flag and the count are as they should be when the module has been loaded. -/
theorem launched_load (text : Memory) (wp : WpTable) : Launched (loadDriver text wp) :=
  ⟨le_rfl, nofun⟩

/-! ## One handler step -/

/-- With a free entry `bp_add(-1)` does not refuse. -/
theorem bpAddLocked_ok {bp bp' : Bp} {draws rest : List (BitVec 32)} {ok : Bool}
    (room : bp.bpUsageCount < bp.bpCount)
    (added : bp.bpAddLocked (-1) draws = some (ok, bp', rest)) : ok = true := by
  have notFull : bp.bpUsageCount ≠ bp.bpCount := by omega
  rw [Bp.bpAddLocked, if_pos rfl, if_neg notFull] at added
  obtain ⟨⟨i, left⟩, -, same⟩ := Option.map_eq_some_iff.mp added
  exact (congrArg Prod.fst same).symm

/-- What a handler takes out of the armed entries it holds, until `bp_add(-1)` gives it back. -/
theorem handlerStep_conserves {g g' : Shared} {pc pc' : HandlerPc} {input : HandlerInput}
    (count : 0 ≤ g.bp.bpCount) (stopping : g.bp.bpStopping = false)
    (room : pc = .rearmLock → g.bp.bpUsageCount < g.bp.bpCount)
    (stepped : handlerStep g pc input = some (g', pc')) :
    g'.bp.bpUsageCount + weight (·.displaced) pc'
      = g.bp.bpUsageCount + weight (·.displaced) pc := by
  cases handlerStep_move stepped with
  | remove a i found =>
    change (g.bp.disarm i).bpUsageCount + 1 = g.bp.bpUsageCount + 0
    rw [Bp.bpUsageCount_disarm (Bp.findArmed_eq_some.mp found).1, Int.sub_add_cancel, Int.add_zero]
  | count a flag => exact congrArg (· + 1) (Bp.bpUsageCount_congr rfl rfl)
  | refuse a flag | shut flag => exact absurd (stopping.symm.trans flag) (by decide)
  | readd ok bp draws rest added =>
    have armed := bpAddLocked_ok (room rfl) added
    rcases Bp.bpAddLocked_cases count added with ⟨refused, -⟩ | ⟨-, i, below, free, rfl⟩
    · exact absurd (armed.symm.trans refused) (by decide)
    · change (g.bp.arm i).bpUsageCount + 0 = g.bp.bpUsageCount + 1
      rw [Bp.bpUsageCount_arm below free, Int.add_zero]
  | leave => exact congrArg (· + 0) (Bp.bpUsageCount_congr rfl rfl)
  | _ => rfl

/-! ## Every run -/

/-- Armed entries and handlers that hold one are `k` together, which the table can hold, and
the count is a C `int`. -/
structure Conserved (k : Int) (s : Driver) : Prop where
  stopping : s.shared.bp.bpStopping = false
  count : k ≤ s.shared.bp.bpCount
  int : s.shared.bp.bpCount < 2 ^ 31
  live : s.shared.bp.bpUsageCount + s.handlers.countP (·.displaced) = k

/-- A handler at `bp_add(-1)` holds one of the `k`, so an entry is free. -/
theorem Conserved.room {k : Int} {s : Driver} (inv : Conserved k s)
    (here : .rearmLock ∈ s.handlers) : s.shared.bp.bpUsageCount < s.shared.bp.bpCount := by
  have held : 0 < s.handlers.countP (·.displaced) := List.countP_pos_iff.mpr ⟨_, here, rfl⟩
  have live := inv.live
  have count := inv.count
  omega

/-- A table never has more armed entries than entries. -/
theorem bpUsageCount_le {bp : Bp} (count : 0 ≤ bp.bpCount) : bp.bpUsageCount ≤ bp.bpCount := by
  have most := List.countP_le_length (p := (bp.bpState · = .USING))
    (l := List.range bp.bpCount.toNat)
  rw [List.length_range] at most
  rw [Bp.bpUsageCount]
  omega

/-- Every step of a handler conserves the armed entries and those in the hands of handlers. -/
theorem Conserved.step {k : Int} {s t : Driver} {event : DriverEvent} (live : Conserved k s)
    (launched : Launched s) (handlers : event.isHandlers = true)
    (stepped : driverStep s event = some t) : Conserved k t := by
  cases event with
  | trap ip =>
    cases Option.some.inj stepped
    have outside : [HandlerPc.trapped ip].countP (·.displaced) = 0 := rfl
    refine ⟨live.stopping, live.count, live.int, ?_⟩
    rw [List.countP_append, outside, Nat.add_zero]
    exact live.live
  | handler j input =>
    obtain ⟨⟨g, after⟩, moved, rfl⟩ := Option.map_eq_some_iff.mp stepped
    obtain ⟨before, pc, pc', after, -, split, rfl, act⟩ := poolStep_cases moved
    have effect := handlerStep_effect act
    have room (here : pc = .rearmLock) : s.shared.bp.bpUsageCount < s.shared.bp.bpCount := by
      apply live.room
      rw [split, here]
      simp
    have conserved := handlerStep_conserves launched.count live.stopping room act
    have counted := countP_replaced (·.displaced) before after pc pc'
    have total := live.live
    rw [split] at total
    have list : s.shared.bp.SameList g.bp := effect.sameList launched.count
    refine ⟨effect.flags.2.trans live.stopping, ?_, ?_, ?_⟩
    · exact live.count.trans_eq list.count.symm
    · exact list.count.trans_lt live.int
    · change g.bp.bpUsageCount + ((before ++ pc' :: after).countP (·.displaced) : Int) = k
      omega
  | start | stop | control => contradiction

/-- Some draw of `random32` stops the loop of `bp_add(-1)` at a free entry. -/
theorem randomPick_reaches {bp : Bp} {i : Nat} (count : bp.bpCount < 2 ^ 31)
    (below : (i : Int) < bp.bpCount) (free : bp.bpState i ≠ .USING) (rest : List (BitVec 32)) :
    bp.randomPick (BitVec.ofNat 32 i :: rest) = some (i, rest) := by
  have drawn : (BitVec.ofNat 32 i % BitVec.ofInt 32 bp.bpCount).toNat = i := by
    have exact32 : (bp.bpCount % ((2 ^ 32 : Nat) : Int)).toNat = bp.bpCount.toNat := by omega
    rw [BitVec.toNat_umod, BitVec.toNat_ofNat, BitVec.toNat_ofInt, exact32,
      Nat.mod_eq_of_lt (a := i) (by omega), Nat.mod_eq_of_lt (by omega)]
  rw [Bp.randomPick]
  simp only [drawn, if_neg free]

/-- Between the return of `start` with no breakpoint in a handler's hands and the next control
write, the armed entries and the handlers between their `bp_remove` and their `bp_add(-1)` keep
their number. So `bp_add(-1)` finds the flag clear, the table not all in use and a modulus that is
not zero, and draws exist that stop its loop. -/
theorem live_conserved (text : Memory) (wp : WpTable) (history events : List DriverEvent)
    (s t : Driver) (opened : run driverStep (loadDriver text wp) history = some s)
    (started : s.control = .idle ∧ s.running = true)
    (still : ∀ pc ∈ s.handlers, pc.displaced = false) (int : s.shared.bp.bpCount < 2 ^ 31)
    (handlers : ∀ event ∈ events, event.isHandlers = true)
    (ran : run driverStep s events = some t) :
    t.shared.bp.bpUsageCount + t.handlers.countP (·.displaced) = s.shared.bp.bpUsageCount ∧
      t.shared.bp.bpStopping = false ∧
      (.rearmLock ∈ t.handlers →
        t.shared.bp.bpUsageCount ≠ t.shared.bp.bpCount ∧
        BitVec.ofInt 32 t.shared.bp.bpCount ≠ 0 ∧
        (∀ draws ok bp rest,
          t.shared.bp.bpAddLocked (-1) draws = some (ok, bp, rest) → ok = true) ∧
        ∃ i : Nat, (i : Int) < t.shared.bp.bpCount ∧ t.shared.bp.bpState i ≠ .USING ∧
          ∃ draw, t.shared.bp.bpAddLocked (-1) [draw] = some (true, t.shared.bp.arm i, [])) := by
  have launched : Launched s :=
    run_invariant (fun _ _ _ => Launched.step) (launched_load text wp) opened
  have held : s.handlers.countP (·.displaced) = 0 :=
    List.countP_eq_zero.mpr fun pc member => by simp [still pc member]
  have isOpen : s.launched = true := by
    rw [Driver.launched, started.1]
    exact started.2
  have start : Conserved s.shared.bp.bpUsageCount s :=
    ⟨launched.stopping isOpen, bpUsageCount_le launched.count, int, by rw [held]; simp⟩
  have admitted : Admits driverStep (fun _ event => event.isHandlers = true) s events :=
    admits_of_forall (fun event member _ => handlers event member) s
  have both : Conserved s.shared.bp.bpUsageCount t ∧ Launched t :=
    run_admitted (I := fun u => Conserved s.shared.bp.bpUsageCount u ∧ Launched u)
      (fun u event v inv handlers stepped =>
        ⟨inv.1.step inv.2 handlers stepped, inv.2.step stepped⟩)
      ⟨start, launched⟩ admitted ran
  obtain ⟨live, -⟩ := both
  refine ⟨live.live, live.stopping, fun here => ?_⟩
  have room := live.room here
  obtain ⟨i, below, free⟩ := Bp.exists_free room
  have notFull : t.shared.bp.bpUsageCount ≠ t.shared.bp.bpCount := by omega
  refine ⟨notFull, ?_, fun draws ok bp rest => bpAddLocked_ok room, i, below, free,
    BitVec.ofNat 32 i, ?_⟩
  · intro zero
    have residue := congrArg BitVec.toNat zero
    have int := live.int
    rw [BitVec.toNat_ofInt] at residue
    change (t.shared.bp.bpCount % ((2 ^ 32 : Nat) : Int)).toNat = 0 at residue
    omega
  · rw [Bp.bpAddLocked, if_pos rfl, if_neg notFull, randomPick_reaches live.int below free]
    rfl

/-- The steps that start one session. -/
def startOne : List DriverEvent := .start oneAddress :: List.replicate 10 (.control [])

/-- A handler comes to the locked section of its `bp_add(-1)`. -/
def comeToRearm : List DriverEvent :=
  [.trap 0x1001, .handler 0 .tick, .handler 0 .tick, .handler 0 .tick,
    .handler 0 (.decoded none), .handler 0 .tick]

/-- The one entry is in the hands of a handler, which finds it free. -/
theorem live_conserved_rearm :
    ∃ s t, run driverStep (loadDriver noops .loaded) startOne = some s ∧
      run driverStep s comeToRearm = some t ∧ t.handlers = [.rearmLock] ∧
      s.shared.bp.bpUsageCount = 1 ∧
      t.shared.bp.bpUsageCount + t.handlers.countP (·.displaced) = 1 ∧
      t.shared.bp.bpUsageCount ≠ t.shared.bp.bpCount := by
  refine ⟨_, _, rfl, rfl, rfl, rfl, ?_⟩
  have live := live_conserved noops .loaded startOne comeToRearm _ _ rfl ⟨rfl, rfl⟩
    (fun _ member => by contradiction) (by decide) (by decide) rfl
  exact ⟨live.1, (live.2.2 (by decide)).1⟩

end Drddr
