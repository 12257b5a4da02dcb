import Drddr.Bp.Overlay
import Drddr.Driver.Live

/-!
# Memory from one session to the next

Every session plants in the memory that the session before it has left. If no handler plants
behind the back of `bp_clean`, that is the memory in which the module was loaded: a session has
taken everything back when `bp_clean` waits for the last handlers, and until the next `bp_init`
is over nothing is planted. So over any number of sessions the memory is the one in which the
module was loaded, with `INT3` at what is planted now.
-/

namespace Drddr

open Machine

/-- No address is listed twice. -/
def StartArgs.Distinct (args : StartArgs) : Prop :=
  ∀ i < args.addresscnt, ∀ j < args.addresscnt, args.address i = args.address j → i = j

instance (args : StartArgs) : Decidable args.Distinct :=
  inferInstanceAs (Decidable (∀ i < args.addresscnt, ∀ j < args.addresscnt, _ → _))

/-- A list that is given to `start` has no address twice, and a handler that comes to the locked
section of `bp_add(-1)` behind `bp_clean` finds no free entry there. -/
def Orderly (s : Driver) : DriverEvent → Prop
  | .handler k _ => s.handlers[k]? = some .rearmLock →
      s.shared.bp.bpStopping = false ∨ s.shared.bp.bpUsageCount = s.shared.bp.bpCount
  | .start args => args.Distinct
  | _ => True

instance (s : Driver) : (event : DriverEvent) → Decidable (Orderly s event)
  | .handler k _ => inferInstanceAs (Decidable (s.handlers[k]? = some .rearmLock →
      s.shared.bp.bpStopping = false ∨ s.shared.bp.bpUsageCount = s.shared.bp.bpCount))
  | .start args => inferInstanceAs (Decidable args.Distinct)
  | .trap _ | .stop | .control _ => isTrue trivial

namespace Bp

/-- A table in which nothing is planted, nor armed beyond the count, over the original memory. -/
structure Bare (original : Memory) (s : Bp) : Prop where
  text : s.text = original
  free : ∀ i, s.bpState i ≠ .USING

/-- What is planted is planted by entries of the list. -/
structure Planting (original : Memory) (s : Bp) : Prop where
  overlays : s.Overlays original
  beyond : ∀ i : Nat, s.bpCount ≤ i → s.bpState i ≠ .USING

variable {s t : Bp} {original : Memory}

/-- Nothing is armed in a bare table. -/
theorem Bare.planted (bare : s.Bare original) : s.planted = ∅ := by
  apply Set.eq_empty_of_forall_notMem
  rintro a ⟨i, armed, -⟩
  exact bare.free i armed.2

/-- In a bare table no armed entry is found. -/
theorem Bare.findArmed (bare : s.Bare original) (a : Word) : s.findArmed a = none :=
  findArmed_eq_none.mpr fun i armed => absurd armed.2 (bare.free i)

/-- A bare table with a list of distinct addresses plants on the original memory. -/
theorem Bare.planting (bare : s.Bare original) (count : 0 ≤ s.bpCount)
    (distinct : s.DistinctAddresses) : s.Planting original where
  overlays :=
    { count := count
      distinct := distinct
      text := by rw [bare.planted, overlay_empty, bare.text]
      backup := fun i armed => absurd armed.2 (bare.free i) }
  beyond := fun i _ => bare.free i

/-- Taking a planted entry back leaves a table that plants on the original memory. -/
theorem Planting.disarm (planting : s.Planting original) {i : Nat} (armed : s.Armed i) :
    (s.disarm i).Planting original := by
  refine ⟨planting.overlays.disarm armed, fun k outside => ?_⟩
  have other : k ≠ i := fun same => absurd armed.1 (by rw [← same]; exact Int.not_lt.mpr outside)
  show Function.update s.bpState i .UNUSED k ≠ .USING
  rw [Function.update_of_ne other]
  exact planting.beyond k outside

/-- The locked section of `bp_add` leaves a table that plants on the original memory. -/
theorem Planting.bpAddLocked (planting : s.Planting original) {choice : Int}
    {draws rest : List (BitVec 32)} {ok : Bool}
    (added : s.bpAddLocked choice draws = some (ok, t, rest)) : t.Planting original := by
  refine ⟨planting.overlays.bpAddLocked added, ?_⟩
  rcases bpAddLocked_cases planting.overlays.count added with ⟨-, rfl⟩ | ⟨-, i, below, -, rfl⟩
  · exact planting.beyond
  · intro k outside
    have other : k ≠ i := fun same => absurd below (by rw [← same]; exact Int.not_lt.mpr outside)
    show Function.update s.bpState i .USING k ≠ .USING
    rw [Function.update_of_ne other]
    exact planting.beyond k outside

/-- The locked section of `bp_clean` takes everything back and leaves a bare table. -/
theorem Planting.bpCleanLocked (planting : s.Planting original) :
    s.bpCleanLocked.Bare original := by
  obtain ⟨kept, disarmed⟩ := bpCleanLocked_spec (P := fun t => t.Planting original)
    (fun t i ht armed _ => ht.disarm armed)
    (fun t ht => ⟨⟨ht.overlays.count, ht.overlays.distinct, ht.overlays.text, ht.overlays.backup⟩,
      ht.beyond⟩) planting
  constructor
  · rw [kept.overlays.text, (planting.overlays.bpCleanLocked).2, overlay_empty]
  · intro i used
    by_cases below : (i : Int) < s.bpCleanLocked.bpCount
    · exact disarmed i ⟨below, used⟩
    · exact kept.beyond i (Int.not_lt.mp below) used

/-- The trap count is not part of what is planted. -/
theorem Planting.withTrapCount (planting : s.Planting original) (n : Int) :
    ({ s with bpTrapCount := n } : Bp).Planting original :=
  ⟨⟨planting.overlays.count, planting.overlays.distinct, planting.overlays.text,
    planting.overlays.backup⟩, planting.beyond⟩

/-- With every entry in use `bp_add(-1)` does nothing. -/
theorem bpAddLocked_full {draws rest : List (BitVec 32)} {ok : Bool}
    (full : s.bpUsageCount = s.bpCount) (added : s.bpAddLocked (-1) draws = some (ok, t, rest)) :
    t = s := by
  rw [Bp.bpAddLocked, if_pos rfl, if_pos full] at added
  exact (congrArg (·.2.1) (Option.some.inj added)).symm

end Bp

/-! ## The list -/

/-- The table holds the first entries of a list without repetitions. -/
structure Lists (args : StartArgs) (n : Nat) (bp : Bp) : Prop where
  distinct : args.Distinct
  count : bp.bpCount = args.addresscnt
  addr : ∀ i < n, bp.bpAddr i = args.address i

/-- What the control thread knows of its list. -/
def ListHolds (bp : Bp) : DriverPc → Prop
  | .clean next | .poll next | .wpClean next | .halt next =>
    ∀ args, next = some args → args.Distinct
  | .startClean args | .initCount args => args.Distinct
  | .initAddr args i => Lists args i bp
  | .initState args i => Lists args (i + 1) bp
  | .initStopping args => Lists args args.addresscnt bp
  | _ => True

/-- A whole list makes a table of distinct addresses. -/
theorem Lists.distinctAddresses {args : StartArgs} {bp : Bp}
    (lists : Lists args args.addresscnt bp) : bp.DistinctAddresses := by
  intro i j hi hj same
  rw [lists.count] at hi hj
  have left : i < args.addresscnt := by exact_mod_cast hi
  have right : j < args.addresscnt := by exact_mod_cast hj
  rw [lists.addr i left, lists.addr j right] at same
  exact lists.distinct i left j right same

/-! ## Every step -/

/-- What every step of an orderly run keeps. -/
structure SessionsInvariant (original : Memory) (s : Driver) : Prop where
  /-- From the end of `bp_init` to the next `stop`. -/
  planting : s.launched = true → s.shared.bp.Planting original
  /-- From the locked section of `bp_clean` on. -/
  bare : s.launched = false → s.shared.bp.Bare original
  list : ListHolds s.shared.bp s.control

variable {original : Memory} {s t : Driver}

/-- What a handler does to a table in which something may be planted. -/
theorem HandlerEffect.planting {g g' : Shared} {pc pc' : HandlerPc}
    (effect : HandlerEffect g pc g' pc') (planting : g.bp.Planting original) :
    g'.bp.Planting original := by
  cases effect with
  | quiet | missed => exact planting
  | removed a i found => exact planting.disarm (Bp.findArmed_eq_some.mp found).1
  | counted => exact planting.withTrapCount _
  | readded ok bp draws rest added => exact planting.bpAddLocked added
  | left => exact planting.withTrapCount _

/-- A step of a handler leaves a bare table bare, unless it plants. -/
theorem HandlerEffect.bare {g g' : Shared} {pc pc' : HandlerPc}
    (effect : HandlerEffect g pc g' pc') (bare : g.bp.Bare original)
    (full : pc = .rearmLock → g.bp.bpUsageCount = g.bp.bpCount) : g'.bp.Bare original := by
  cases effect with
  | quiet | missed => exact bare
  | removed a i found => exact absurd (found.symm.trans (bare.findArmed a)) (by simp)
  | counted => exact ⟨bare.text, bare.free⟩
  | readded ok bp draws rest added =>
    rw [Bp.bpAddLocked_full (full rfl) added]
    exact bare
  | left => exact ⟨bare.text, bare.free⟩

/-- The list is held by any table with the same addresses and count. -/
theorem ListHolds.congr {bp bp' : Bp} {pc : DriverPc} (holds : ListHolds bp pc)
    (addr : bp'.bpAddr = bp.bpAddr) (count : bp'.bpCount = bp.bpCount) : ListHolds bp' pc := by
  have same {args : StartArgs} {n : Nat} (lists : Lists args n bp) : Lists args n bp' :=
    ⟨lists.distinct, count.trans lists.count, fun i below => by rw [addr, lists.addr i below]⟩
  cases pc with
  | initAddr args i => exact same holds
  | initState args i => exact same holds
  | initStopping args => exact same holds
  | _ => exact holds

/-- Behind `bp_clean` an orderly handler finds no entry to plant. -/
theorem full_of_orderly (kept : DriverInvariant s) (closed : s.launched = false) {k : Nat}
    {input : HandlerInput} (orderly : Orderly s (.handler k input))
    (here : s.handlers[k]? = some .rearmLock) :
    s.shared.bp.bpUsageCount = s.shared.bp.bpCount := by
  rcases orderly here with still | full
  · obtain ⟨shared, handlers, running, control⟩ := s
    have counted (quiet : Quiesced shared.bp handlers) :
        shared.bp.bpUsageCount = shared.bp.bpCount :=
      absurd (quiet.still _ (List.mem_of_getElem? here)) (by decide)
    cases control with
    | idle =>
      have stopped : running = false := closed
      exact counted (kept.quiesced (by rw [Driver.closed, stopped]; rfl))
    | poll next => exact absurd (still.symm.trans (kept.polling next rfl)) (by decide)
    | wpClean | halt | startClean | initCount | initAddr | initState | initStopping =>
      exact counted (kept.quiesced rfl)
    | clean | adding | addLocked | launch => exact Bool.noConfusion closed
  · exact full

/-- A handler step keeps the invariant of the sessions. -/
theorem SessionsInvariant.handler {g : Shared} {handlers : List HandlerPc} {k : Nat}
    {input : HandlerInput} (inv : SessionsInvariant original s) (kept : DriverInvariant s)
    (launched : Launched s) (orderly : Orderly s (.handler k input))
    (moved : poolStep handlerStep s.shared s.handlers k input = some (g, handlers)) :
    SessionsInvariant original { s with shared := g, handlers := handlers } := by
  obtain ⟨-, pc, pc', -, mine, -, -, act⟩ := poolStep_cases moved
  have effect := handlerStep_effect act
  have same := effect.sameList launched.count
  constructor
  · intro isOpen
    exact effect.planting (inv.planting isOpen)
  · intro closed
    refine effect.bare (inv.bare closed) fun locks => ?_
    exact full_of_orderly kept closed orderly (locks ▸ mine)
  · exact inv.list.congr same.addr same.count

/-- A step of the control thread keeps the invariant of the sessions. -/
theorem SessionsInvariant.control {g : Shared} {running : Bool} {pc : DriverPc}
    {draws : List (BitVec 32)} (inv : SessionsInvariant original s)
    (moved : controlStep s.shared s.running draws s.control = some (g, running, pc)) :
    SessionsInvariant original { s with shared := g, running := running, control := pc } := by
  obtain ⟨shared, handlers, wasRunning, control⟩ := s
  have ofBare {bp : Bp} {wp : WpTable} {running : Bool} {pc : DriverPc} (bare : bp.Bare original)
      (closed : Driver.launched ⟨⟨bp, wp⟩, handlers, running, pc⟩ = false)
      (list : ListHolds bp pc) : SessionsInvariant original ⟨⟨bp, wp⟩, handlers, running, pc⟩ :=
    ⟨fun isOpen => Bool.noConfusion (closed.symm.trans isOpen), fun _ => bare, list⟩
  have ofOpen {bp : Bp} {wp : WpTable} {running : Bool} {pc : DriverPc}
      (planting : bp.Planting original)
      (isOpen : Driver.launched ⟨⟨bp, wp⟩, handlers, running, pc⟩ = true)
      (list : ListHolds bp pc) : SessionsInvariant original ⟨⟨bp, wp⟩, handlers, running, pc⟩ :=
    ⟨fun _ => planting, fun closed => Bool.noConfusion (closed.symm.trans isOpen), list⟩
  cases controlStep_move moved with
  | clean next => exact ofBare (inv.planting rfl).bpCleanLocked rfl inv.list
  | drained next zero => exact ofBare (inv.bare rfl) rfl inv.list
  | wait next => exact ofBare (inv.bare rfl) rfl inv.list
  | wpClean next => exact ofBare (inv.bare rfl) rfl inv.list
  | stopped => exact ofBare (inv.bare rfl) rfl trivial
  | restart args => exact ofBare (inv.bare rfl) rfl (inv.list args rfl)
  | startClean args => exact ofBare (inv.bare rfl) rfl inv.list
  | initCount args =>
    have bare : shared.bp.Bare original := inv.bare rfl
    exact ofBare ⟨bare.text, bare.free⟩ rfl ⟨inv.list, rfl, fun i below => absurd below (by omega)⟩
  | initAddr args i inside =>
    have bare : shared.bp.Bare original := inv.bare rfl
    have lists : Lists args i shared.bp := inv.list
    refine ofBare ⟨bare.text, bare.free⟩ rfl ⟨lists.distinct, lists.count, fun j below => ?_⟩
    by_cases last : j = i
    · rw [last]
      exact Function.update_self ..
    · exact (Function.update_of_ne last ..).trans (lists.addr j (by omega))
  | initDone args i outside =>
    have bare : shared.bp.Bare original := inv.bare rfl
    have lists : Lists args i shared.bp := inv.list
    exact ofBare ⟨bare.text, bare.free⟩ rfl
      ⟨lists.distinct, lists.count, fun j below => lists.addr j (by omega)⟩
  | initState args i =>
    have bare : shared.bp.Bare original := inv.bare rfl
    refine ofBare ⟨bare.text, fun j used => ?_⟩ rfl ?_
    · by_cases last : j = i
      · rw [last] at used
        exact absurd ((Function.update_self ..).symm.trans used) (by decide)
      · exact bare.free j ((Function.update_of_ne last ..).symm.trans used)
    · have lists : Lists args (i + 1) shared.bp := inv.list
      exact ⟨lists.distinct, lists.count, lists.addr⟩
  | initStopping args =>
    have bare : shared.bp.Bare original := inv.bare rfl
    have lists : Lists args args.addresscnt shared.bp := inv.list
    have count : 0 ≤ shared.bp.bpCount := by
      rw [lists.count]
      exact Int.natCast_nonneg _
    exact ofOpen (Bp.Bare.planting ⟨bare.text, bare.free⟩ count lists.distinctAddresses) rfl trivial
  | added => exact ofOpen (inv.planting rfl) rfl trivial
  | shut choice choices flag => exact ofOpen (inv.planting rfl) rfl trivial
  | lock choice choices flag => exact ofOpen (inv.planting rfl) rfl trivial
  | add choice choices ok bp draws rest added =>
    exact ofOpen ((inv.planting rfl).bpAddLocked added) rfl trivial
  | launch => exact ofOpen (inv.planting rfl) rfl trivial

/-- Every orderly step keeps the invariant of the sessions. -/
theorem SessionsInvariant.step {event : DriverEvent} (inv : SessionsInvariant original s)
    (kept : DriverInvariant s) (launched : Launched s) (orderly : Orderly s event)
    (stepped : driverStep s event = some t) : SessionsInvariant original t := by
  cases event with
  | trap ip =>
    cases Option.some.inj stepped
    exact ⟨inv.planting, inv.bare, inv.list⟩
  | handler k input =>
    obtain ⟨⟨g, handlers⟩, moved, rfl⟩ := Option.map_eq_some_iff.mp stepped
    exact inv.handler kept launched orderly moved
  | start args =>
    obtain ⟨shared, handlers, running, control⟩ := s
    cases control with
    | idle =>
      cases Option.some.inj stepped
      cases running with
      | true =>
        refine ⟨fun _ => inv.planting rfl, fun closed => Bool.noConfusion closed, ?_⟩
        exact fun other same => Option.some.inj same ▸ orderly
      | false =>
        exact ⟨fun isOpen => Bool.noConfusion isOpen, fun _ => inv.bare rfl, orderly⟩
    | _ => contradiction
  | stop =>
    obtain ⟨shared, handlers, running, control⟩ := s
    cases control with
    | idle =>
      cases Option.some.inj stepped
      cases running with
      | true =>
        refine ⟨fun _ => inv.planting rfl, fun closed => Bool.noConfusion closed, ?_⟩
        exact fun other same => absurd same (by simp)
      | false =>
        exact ⟨fun isOpen => Bool.noConfusion isOpen, fun _ => inv.bare rfl, trivial⟩
    | _ => contradiction
  | control draws =>
    obtain ⟨⟨g, running, pc⟩, moved, rfl⟩ := Option.map_eq_some_iff.mp stepped
    exact inv.control moved

/-! ## Every run -/

/-- The invariant of the sessions holds when the module has been loaded. -/
theorem sessionsInvariant_load (text : Memory) (wp : WpTable) :
    SessionsInvariant text (loadDriver text wp) :=
  ⟨fun isOpen => Bool.noConfusion isOpen, fun _ => ⟨rfl, fun _ used => by contradiction⟩, trivial⟩

/-- The invariant of the sessions holds in every state of every orderly run. -/
theorem sessionsInvariant_run {text : Memory} {wp : WpTable} {events : List DriverEvent}
    (orderly : Admits driverStep Orderly (loadDriver text wp) events)
    (ran : run driverStep (loadDriver text wp) events = some s) :
    SessionsInvariant text s ∧ DriverInvariant s ∧ Launched s := by
  refine @run_admitted _ _ driverStep Orderly
    (fun s => SessionsInvariant text s ∧ DriverInvariant s ∧ Launched s) ?_ events _ s
    ⟨sessionsInvariant_load text wp, driverInvariant_load text wp, launched_load text wp⟩
    orderly ran
  intro u event v holds ok stepped
  obtain ⟨inv, kept, launched⟩ := holds
  exact ⟨inv.step kept launched ok stepped, kept.step stepped, launched.step stepped⟩

/-- In a state with the invariant of the sessions, the memory is the original one with `INT3` at the
planted addresses. -/
theorem SessionsInvariant.overlay (inv : SessionsInvariant original s) :
    s.shared.bp.text = Machine.overlay original INT3 s.shared.bp.planted ∧
      (s.launched = false → s.shared.bp.planted = ∅ ∧ s.shared.bp.text = original) := by
  constructor
  · cases phase : s.launched with
    | true => exact (inv.planting phase).overlays.text
    | false => rw [(inv.bare phase).planted, overlay_empty, (inv.bare phase).text]
  · intro closed
    exact ⟨(inv.bare closed).planted, (inv.bare closed).text⟩

/-- In every state of every orderly run, over any number of sessions, the memory is the one in
which the module was loaded with `INT3` at the planted addresses; and from the locked section of
`bp_clean` to the end of the next `bp_init` there are none. -/
theorem sessions_overlay (text : Memory) (wp : WpTable) (events : List DriverEvent) (s : Driver)
    (orderly : Admits driverStep Orderly (loadDriver text wp) events)
    (ran : run driverStep (loadDriver text wp) events = some s) :
    s.shared.bp.text = overlay text INT3 s.shared.bp.planted ∧
      (s.launched = false → s.shared.bp.planted = ∅ ∧ s.shared.bp.text = text) :=
  (sessionsInvariant_run orderly ran).1.overlay

/-- A handler that is counted when its session is stopped, and another list after it. -/
theorem sessions_overlay_two :
    ∃ s, run driverStep (loadDriver noops .loaded) stopAndStart = some s ∧
      s.control = .initAddr oneAddress 0 ∧ s.shared.bp.planted = ∅ ∧
      s.shared.bp.text = noops := by
  have orderly : Admits driverStep Orderly (loadDriver noops .loaded) stopAndStart := by decide
  refine ⟨_, rfl, rfl, ?_⟩
  exact (sessions_overlay noops .loaded stopAndStart _ orderly rfl).2 rfl

end Drddr
