import Drddr.Driver.Drawing
import Drddr.Int3.Session

/-!
# A trap handled alone

One trap on an armed breakpoint, handled to its end while nobody else moves. The handler takes the
breakpoint off and draws another one to plant before its thread resumes. The entry that it took off
is free by then, so it may be the one that it plants, and it is if no other entry is free.
-/

namespace Drddr

open Machine

/-- A running driver with one handler and nobody in a loop of `bp_add(-1)`. -/
def alone (g : Shared) (drawn : Nat) (pc : HandlerPc) : Drawing :=
  ⟨⟨g, [pc], true, .idle⟩, none, drawn⟩

/-- The handler has returned to its thread. -/
def HandlerPc.isDone : HandlerPc → Bool
  | .passed _ | .resumed _ | .finished => true
  | _ => false

/-- A trap on the breakpoint at an address is handled to its end while nobody else moves, with the
numbers of a stream from some number on. -/
def Handled (random : Nat → BitVec 32) (a : Word) (g : Shared) (drawn : Nat) (pc : HandlerPc)
    (g' : Shared) (drawn' : Nat) : Prop :=
  pc.isDone = true ∧ Leads (drawingStep random) (fun u event => u.moves 0 event = true)
    (alone g drawn (.trapped (a + 1))) (alone g' drawn' pc)

/-- A thread resumes at the address and traps again, some number of times. -/
inductive Rounds (random : Nat → BitVec 32) (a : Word) : Nat → Shared → Nat → Shared → Nat → Prop
    where
  | none (g : Shared) (drawn : Nat) : Rounds random a 0 g drawn g drawn
  | next {n : Nat} {g g' g'' : Shared} {drawn drawn' drawn'' : Nat} {pc : HandlerPc}
      (round : Handled random a g drawn pc g' drawn')
      (more : Rounds random a n g' drawn' g'' drawn'') :
      Rounds random a (n + 1) g drawn g'' drawn''

namespace Bp

/-- The table with one more handler counted. -/
def counted (s : Bp) : Bp := { s with bpTrapCount := s.bpTrapCount + 1 }

/-- The handler that takes an entry off can plant another one, or the same. -/
def CanPlant (s : Bp) (i j : Nat) : Prop := (j : Int) < s.bpCount ∧ (j = i ∨ s.bpState j ≠ .USING)

variable {s : Bp} {original : Memory} {i : Nat}

/-- Counting off undoes counting. -/
theorem bpDecTrapped_counted (s : Bp) : s.counted.bpDecTrapped = s := by
  rw [bpDecTrapped, counted, Int.add_sub_cancel]

/-- An entry that is planted again leaves no trace. -/
theorem Overlays.arm_disarm (h : s.Overlays original) (armed : s.Armed i) :
    (s.disarm i).arm i = s := by
  have planted : s.text (s.bpAddr i) = INT3 := (h.tableInvariant.armed i armed.1 armed.2).1
  have text : ((s.disarm i).arm i).text = s.text := by
    show ((s.text.set (s.bpAddr i) (s.bpBackup i)).set (s.bpAddr i) INT3) = s.text
    rw [Memory.set, Memory.set, Function.update_idem, ← planted, Function.update_eq_self]
  have backup : ((s.disarm i).arm i).bpBackup = s.bpBackup := by
    show Function.update s.bpBackup i ((s.text.set (s.bpAddr i) (s.bpBackup i)) (s.bpAddr i)) = _
    rw [Memory.set_self, Function.update_eq_self]
  have state : ((s.disarm i).arm i).bpState = s.bpState := by
    show Function.update (Function.update s.bpState i .UNUSED) i .USING = s.bpState
    rw [Function.update_idem, ← armed.2, Function.update_eq_self]
  rw [Bp.mk.injEq]
  exact ⟨rfl, state, backup, rfl, rfl, rfl, text⟩

/-- The breakpoint is in its place again just when the same entry is planted. -/
theorem Overlays.planted_again (h : s.Overlays original) (armed : s.Armed i) {j : Nat}
    (can : s.CanPlant i j) : s.bpAddr i ∈ ((s.disarm i).arm j).planted ↔ j = i := by
  have below : (j : Int) < (s.disarm i).bpCount := can.1
  rw [planted_arm below, planted_disarm h.distinct armed, Set.mem_insert_iff]
  constructor
  · rintro (same | ⟨-, other⟩)
    · exact h.distinct j i can.1 armed.1 same.symm
    · exact absurd rfl other
  · intro same
    exact .inl (congrArg s.bpAddr same.symm)

end Bp

/-! ## One trap -/

/-- Where the handler is, and what the table is there; the entries that have been drawn so far are
given. -/
def AloneAt (s : Bp) (i : Nat) (drawn : Set Nat) (g : Shared) : HandlerPc → Prop
  | .trapped ip => ip = s.bpAddr i + 1 ∧ g.bp = s
  | .claimed a => a = s.bpAddr i ∧ g.bp = s
  | .removed a => a = s.bpAddr i ∧ g.bp = s.disarm i
  | .diverted _ | .watching _ | .watched _ | .rearm | .rearmLock => g.bp = (s.disarm i).counted
  | .leaving => ∃ j ∈ drawn, s.CanPlant i j ∧ g.bp = ((s.disarm i).arm j).counted
  | .finished => ∃ j ∈ drawn, s.CanPlant i j ∧ g.bp = (s.disarm i).arm j
  | .passed _ | .resumed _ => False

/-- The entries that the numbers of a stream come to, from one number to another. -/
def drawnEntries (random : Nat → BitVec 32) (s : Bp) (first last : Nat) : Set Nat :=
  {j | ∃ k, first ≤ k ∧ k < last ∧ s.drawnEntry (random k) = j}

/-- Where the handler is does not change when more entries have been drawn. -/
theorem AloneAt.mono {s : Bp} {i : Nat} {drawn drawn' : Set Nat} (more : drawn ⊆ drawn')
    {g : Shared} {pc : HandlerPc} (here : AloneAt s i drawn g pc) : AloneAt s i drawn' g pc := by
  cases pc with
  | leaving =>
    obtain ⟨j, member, rest⟩ := here
    exact ⟨j, more member, rest⟩
  | finished =>
    obtain ⟨j, member, rest⟩ := here
    exact ⟨j, more member, rest⟩
  | trapped | claimed | removed | diverted | watching | watched | rearm | rearmLock | passed
  | resumed => exact here

section

variable {s : Bp} {original : Memory} {i : Nat} (overlays : s.Overlays original)
  (armed : s.Armed i) (still : s.bpStopping = false)

include overlays armed

/-- The entry is the only one at its address. -/
theorem findArmed_own : s.findArmed (s.bpAddr i) = some i := by
  refine Bp.findArmed_eq_some.mpr ⟨armed, rfl, fun k below other => ?_⟩
  have same := overlays.distinct k i other.1.1 armed.1 other.2
  omega

/-- With the entry taken off, another one can be planted. -/
theorem room_disarm : (s.disarm i).bpUsageCount < (s.disarm i).bpCount := by
  have fewer := Bp.bpUsageCount_disarm armed
  have most := bpUsageCount_le overlays.count
  rw [Bp.disarm_bpCount]
  omega

include still

/-- Every step of the handler that draws nothing leads from one place to the next. -/
theorem AloneAt.step {drawn : Set Nat} {g g' : Shared} {pc pc' : HandlerPc} {input : HandlerInput}
    (here : AloneAt s i drawn g pc) (plain : pc ≠ .rearmLock)
    (stepped : handlerStep g pc input = some (g', pc')) : AloneAt s i drawn g' pc' := by
  have own := findArmed_own overlays armed
  cases handlerStep_move stepped with
  | claim ip =>
    refine ⟨?_, here.2⟩
    rw [here.1, BitVec.add_sub_cancel]
  | pass ip absent =>
    have listed : g.bp.bpCheck (ip - 1) = true := by
      rw [here.1, here.2, BitVec.add_sub_cancel]
      exact Bp.bpCheck_eq_true.mpr ⟨i, armed.1, rfl⟩
    rw [listed] at absent
    exact Bool.noConfusion absent
  | remove a k found =>
    obtain ⟨place, table⟩ := here
    rw [table, place, own] at found
    obtain rfl : i = k := Option.some.inj found
    exact ⟨place, congrArg (Bp.disarm · i) table⟩
  | miss a absent =>
    rw [here.2, here.1, own] at absent
    exact absurd absent (by simp)
  | count a => exact congrArg Bp.counted here.2
  | refuse a flag =>
    rw [here.2, Bp.disarm_bpStopping, still] at flag
    exact Bool.noConfusion flag
  | decode => exact here
  | skip => exact here
  | watch => exact here
  | full => exact here
  | add => exact here
  | unwatch => exact here
  | shut flag =>
    have table : g.bp = (s.disarm i).counted := here
    rw [table] at flag
    exact absurd flag (by
      show ¬ s.bpStopping = true
      rw [still]
      decide)
  | lock => exact here
  | readd => exact absurd rfl plain
  | leave =>
    obtain ⟨j, member, can, table⟩ := here
    refine ⟨j, member, can, ?_⟩
    show g.bp.bpDecTrapped = _
    rw [table, Bp.bpDecTrapped_counted]

omit overlays armed still in
/-- A free entry below the count can be planted by the handler. -/
theorem canPlant_of_free {j : Nat} (below : (j : Int) < s.bpCount)
    (free : (s.disarm i).counted.bpState j ≠ .USING) : s.CanPlant i j := by
  refine ⟨below, ?_⟩
  by_cases same : j = i
  · exact .inl same
  · have state : (s.disarm i).counted.bpState j = s.bpState j := Function.update_of_ne same ..
    exact .inr (state ▸ free)

/-- Where the one handler is while it is handled alone, and what has been drawn. -/
structure AloneIn (random : Nat → BitVec 32) (s : Bp) (i first : Nat) (u : Drawing) : Prop where
  place : ∃ pc, u.driver.handlers = [pc] ∧
    AloneAt s i (drawnEntries random s first u.drawn) u.driver.shared pc
  /-- Whoever is in the loop is this handler. -/
  holding : u.holder ≠ none → u.driver.handlers = [.rearmLock]
  begun : first ≤ u.drawn

omit still in
/-- The draw that ends the loop leads the handler on to its last step. -/
theorem AloneIn.ended {random : Nat → BitVec 32} {first : Nat} {u : Drawing} {driver : Driver}
    (here : AloneIn random s i first u) (held : u.holder = some (.handler 0))
    (free : u.driver.shared.bp.bpState (u.driver.shared.bp.drawnEntry (random u.drawn)) ≠ .USING)
    (moved : driverStep u.driver ((Drawer.handler 0).adds [random u.drawn]) = some driver) :
    AloneIn random s i first ⟨driver, none, u.drawn + 1⟩ := by
  obtain ⟨pc, one, at'⟩ := here.place
  have room := room_disarm overlays armed
  have now := here.holding (by simp [held])
  rw [one] at now
  obtain rfl : pc = .rearmLock := List.singleton_inj.mp now
  have table : u.driver.shared.bp = (s.disarm i).counted := at'
  obtain ⟨⟨g, handlers⟩, acted, rfl⟩ := Option.map_eq_some_iff.mp moved
  obtain ⟨pc₀, pc', found, rfl, act⟩ := poolStep_set acted
  rw [one] at found
  obtain rfl : HandlerPc.rearmLock = pc₀ := Option.some.inj found
  rw [table] at free
  have fewer : (s.disarm i).counted.bpUsageCount ≠ (s.disarm i).counted.bpCount :=
    Int.ne_of_lt room
  have added := bpAddLocked_drawn fewer free
  rw [handlerStep, table, added] at act
  cases act
  have below : (((s.disarm i).counted.drawnEntry (random u.drawn) : Nat) : Int) < s.bpCount := by
    have picked : (s.disarm i).counted.randomPick [random u.drawn] =
        some ((s.disarm i).counted.drawnEntry (random u.drawn), []) := by
      rw [Bp.randomPick]
      exact if_neg free
    have positive : 0 < s.bpCount := (Int.natCast_nonneg i).trans_lt armed.1
    exact (Bp.randomPick_spec picked).1 positive
  refine ⟨⟨.leaving, ?_, _, ⟨u.drawn, here.begun, Nat.lt_succ_self _, rfl⟩,
    canPlant_of_free below free, rfl⟩, fun held => absurd rfl held,
    here.begun.trans (Nat.le_succ _)⟩
  show u.driver.handlers.set 0 .leaving = [.leaving]
  rw [one]
  rfl

/-- Every step of the handler leads from one of its places to the next. -/
theorem AloneIn.step {random : Nat → BitVec 32} {first : Nat} {u v : Drawing}
    {event : DrawingEvent} (here : AloneIn random s i first u) (mine : u.moves 0 event = true)
    (stepped : drawingStep random u event = some v) : AloneIn random s i first v := by
  obtain ⟨pc, one, at'⟩ := here.place
  have room := room_disarm overlays armed
  cases drawingStep_move stepped with
  | plain event driver free moved =>
    cases event with
    | handler k input =>
      obtain rfl : k = 0 := of_decide_eq_true mine
      have apart : u.driver.drawsNext (.handler 0) = false := by
        have open' : (u.driver.drawsNext (.handler 0) || _) = false := free
        exact (Bool.or_eq_false_iff.mp open').1
      have elsewhere : u.driver.handlers[0]? ≠ some .rearmLock := of_decide_eq_false apart
      rw [one] at elsewhere
      have plain : pc ≠ .rearmLock := fun same => elsewhere (congrArg some same)
      obtain ⟨⟨g, handlers⟩, acted, rfl⟩ := Option.map_eq_some_iff.mp moved
      obtain ⟨pc₀, pc', found, rfl, act⟩ := poolStep_set acted
      rw [one] at found
      obtain rfl : pc = pc₀ := Option.some.inj found
      refine ⟨⟨pc', ?_, at'.step overlays armed still plain act⟩, fun held => ?_, here.begun⟩
      · show u.driver.handlers.set 0 pc' = [pc']
        rw [one]
        rfl
      · have now := here.holding held
        rw [one] at now
        exact absurd (List.singleton_inj.mp now) plain
    | trap | start | stop | control => exact Bool.noConfusion mine
  | refused who driver unlocked draws full moved =>
    obtain rfl : who = .handler 0 := of_decide_eq_true mine
    have found : u.driver.handlers[0]? = some .rearmLock := of_decide_eq_true draws
    rw [one] at found
    obtain rfl : pc = .rearmLock := Option.some.inj found
    have table : u.driver.shared.bp = (s.disarm i).counted := at'
    rw [table] at full
    exact absurd full (Int.ne_of_lt room)
  | locked who unlocked draws =>
    obtain rfl : who = .handler 0 := of_decide_eq_true mine
    have found : u.driver.handlers[0]? = some .rearmLock := of_decide_eq_true draws
    rw [one] at found
    obtain rfl : pc = .rearmLock := Option.some.inj found
    exact ⟨⟨_, one, at'⟩, fun _ => one, here.begun⟩
  | again who held used =>
    refine ⟨⟨pc, one, at'.mono ?_⟩, here.holding, here.begun.trans (Nat.le_succ _)⟩
    rintro j ⟨k, after, before, same⟩
    exact ⟨k, after, before.trans (Nat.lt_succ_self _), same⟩
  | ended who driver held free moved =>
    obtain rfl : who = .handler 0 :=
      Option.some.inj (held.symm.trans (of_decide_eq_true mine))
    exact here.ended overlays armed held free moved

/-- A handler that returns has planted an entry that it has drawn, and that was free or its own. -/
theorem Handled.planted {random : Nat → BitVec 32} {g g' : Shared} {drawn drawn' : Nat}
    {pc : HandlerPc} (table : g.bp = s)
    (handled : Handled random (s.bpAddr i) g drawn pc g' drawn') :
    drawn ≤ drawn' ∧ ∃ j ∈ drawnEntries random s drawn drawn',
      s.CanPlant i j ∧ g'.bp = (s.disarm i).arm j := by
  obtain ⟨done, events, alone', ran⟩ := handled
  have start : AloneIn random s i drawn (alone g drawn (.trapped (s.bpAddr i + 1))) :=
    ⟨⟨_, rfl, rfl, table⟩, fun held => absurd rfl held, le_rfl⟩
  have here : AloneIn random s i drawn (alone g' drawn' pc) :=
    run_admitted (fun _ _ _ here mine stepped => here.step overlays armed still mine stepped)
      start alone' ran
  obtain ⟨pc₀, one, at'⟩ := here.place
  obtain rfl : pc = pc₀ := List.singleton_inj.mp one
  refine ⟨here.begun, ?_⟩
  cases pc with
  | finished => exact at'
  | passed => exact at'.elim
  | resumed => exact at'.elim
  | trapped | claimed | removed | diverted | watching | watched | rearm | rearmLock | leaving =>
    exact Bool.noConfusion done

omit overlays armed still in
/-- A step of the handler that draws nothing, taken alone. -/
theorem leads_plain {random : Nat → BitVec 32} {g g' : Shared} {drawn : Nat} {pc pc' : HandlerPc}
    {input : HandlerInput} (plain : pc ≠ .rearmLock)
    (act : handlerStep g pc input = some (g', pc')) :
    Leads (drawingStep random) (fun u event => u.moves 0 event = true) (alone g drawn pc)
      (alone g' drawn pc') := by
  have free : (DriverEvent.handler 0 input).thread.any (alone g drawn pc).bars = false := by
    have apart : decide (some pc = some HandlerPc.rearmLock) = false :=
      decide_eq_false fun same => plain (Option.some.inj same)
    show (decide (some pc = some HandlerPc.rearmLock) || false && _) = false
    rw [apart]
    rfl
  have moved : driverStep (alone g drawn pc).driver (.handler 0 input) =
      some (alone g' drawn pc').driver := by
    show (poolStep handlerStep g [pc] 0 input).map _ = _
    rw [poolStep, List.getElem?_cons_zero, Option.bind_some, act]
    rfl
  have mine : (alone g drawn pc).moves 0 (.plain (.handler 0 input)) = true := rfl
  exact .step mine (drawingStep_plain free moved)

/-- A handler that draws an entry that can be planted, at any time, returns. -/
theorem handled_of_drawn {random : Nat → BitVec 32} {g : Shared} (table : g.bp = s)
    {drawn later : Nat} (after : drawn ≤ later)
    (free : (s.disarm i).counted.bpState (s.drawnEntry (random later)) ≠ .USING) :
    ∃ g' drawn', Handled random (s.bpAddr i) g drawn .finished g' drawn' := by
  obtain ⟨bp, wp⟩ := g
  obtain rfl : bp = s := table
  have listed : bp.bpCheck (bp.bpAddr i) = true := Bp.bpCheck_eq_true.mpr ⟨i, armed.1, rfl⟩
  have removed : bp.bpRemove (bp.bpAddr i) = (true, bp.disarm i) := by
    rw [Bp.bpRemove, findArmed_own overlays armed]
  have open' : (bp.disarm i).bpStopping = false := still
  have trapped : (bp.disarm i).bpIncTrapped = (true, (bp.disarm i).counted) := by
    rw [Bp.bpIncTrapped, if_neg (by rw [open']; exact Bool.false_ne_true)]
    rfl
  have room : (bp.disarm i).counted.bpUsageCount ≠ (bp.disarm i).counted.bpCount :=
    Int.ne_of_lt (room_disarm overlays armed)
  have claimed : handlerStep ⟨bp, wp⟩ (.trapped (bp.bpAddr i + 1)) .tick =
      some (⟨bp, wp⟩, .claimed (bp.bpAddr i)) := by
    rw [handlerStep, BitVec.add_sub_cancel, if_pos listed]
  have off : handlerStep ⟨bp, wp⟩ (.claimed (bp.bpAddr i)) .tick =
      some (⟨bp.disarm i, wp⟩, .removed (bp.bpAddr i)) := by
    simp only [handlerStep, removed]
  have diverted : handlerStep ⟨bp.disarm i, wp⟩ (.removed (bp.bpAddr i)) .tick =
      some (⟨(bp.disarm i).counted, wp⟩, .diverted (bp.bpAddr i)) := by
    simp only [handlerStep, trapped]
  have opened : handlerStep ⟨(bp.disarm i).counted, wp⟩ .rearm .tick =
      some (⟨(bp.disarm i).counted, wp⟩, .rearmLock) := by
    have flag : (bp.disarm i).counted.bpStopping = false := still
    rw [handlerStep, if_neg (by rw [flag]; exact Bool.false_ne_true)]
  let held : Drawing :=
    { alone ⟨(bp.disarm i).counted, wp⟩ drawn .rearmLock with holder := some (.handler 0) }
  have locked : Leads (drawingStep random) (fun u event => u.moves 0 event = true)
      (alone ⟨(bp.disarm i).counted, wp⟩ drawn .rearmLock) held := by
    have mine : (alone ⟨(bp.disarm i).counted, wp⟩ drawn .rearmLock).moves 0
        (.lock (.handler 0)) = true := rfl
    refine .step mine ?_
    rw [drawingStep, if_pos ⟨rfl, rfl⟩]
    exact if_neg room
  obtain ⟨d, driver, drawn', ran, always, numbers, moved⟩ :=
    @exists_ended random held (.handler 0) rfl rfl room later after free
  obtain ⟨⟨g, handlers⟩, acted, rfl⟩ := Option.map_eq_some_iff.mp moved
  obtain ⟨pc₀, pc', found, rfl, act⟩ := poolStep_set acted
  obtain rfl : HandlerPc.rearmLock = pc₀ := Option.some.inj found
  obtain rfl := handlerStep_rearmLock act
  have drew : Leads (drawingStep random) (fun u event => u.moves 0 event = true) held
      (alone g drawn' .leaving) := by
    refine ⟨_, always.imp fun event member u holds => ?_, ran⟩
    obtain rfl := List.eq_of_mem_replicate member
    exact decide_eq_true holds
  refine ⟨{ g with bp := g.bp.bpDecTrapped }, drawn', rfl, ?_⟩
  have left : handlerStep g .leaving .tick = some ({ g with bp := g.bp.bpDecTrapped }, .finished) :=
    rfl
  have skipped : handlerStep ⟨(bp.disarm i).counted, wp⟩ (.diverted (bp.bpAddr i)) (.decoded none) =
      some (⟨(bp.disarm i).counted, wp⟩, .rearm) := rfl
  exact (leads_plain (by simp) claimed).trans <| (leads_plain (by simp) off).trans <|
    (leads_plain (by simp) diverted).trans <| (leads_plain (by simp) skipped).trans <|
    (leads_plain (by simp) opened).trans <| locked.trans <| drew.trans <|
    leads_plain (by simp) left

/-! ## Trap after trap -/

/-- With every entry armed a handler that returns has changed nothing. -/
theorem Handled.unchanged (full : ∀ j : Nat, (j : Int) < s.bpCount → s.bpState j = .USING)
    {random : Nat → BitVec 32} {g g' : Shared} {drawn drawn' : Nat} {pc : HandlerPc}
    (table : g.bp = s) (handled : Handled random (s.bpAddr i) g drawn pc g' drawn') :
    g'.bp = s := by
  obtain ⟨-, j, -, can, result⟩ := handled.planted overlays armed still table
  obtain rfl : j = i := can.2.resolve_right fun free => free (full j can.1)
  rw [result, overlays.arm_disarm armed]

/-- With every entry armed any number of handlers that return change nothing. -/
theorem Rounds.unchanged (full : ∀ j : Nat, (j : Int) < s.bpCount → s.bpState j = .USING)
    {random : Nat → BitVec 32} {n : Nat} {g g' : Shared} {drawn drawn' : Nat}
    (rounds : Rounds random (s.bpAddr i) n g drawn g' drawn') (table : g.bp = s) : g'.bp = s := by
  induction rounds with
  | none => exact table
  | next round more ih => exact ih (round.unchanged overlays armed still full table)

omit overlays still in
/-- With every entry armed only the one that was taken off can be planted. -/
theorem free_iff (full : ∀ j : Nat, (j : Int) < s.bpCount → s.bpState j = .USING)
    {j : Nat} (below : (j : Int) < s.bpCount) :
    (s.disarm i).counted.bpState j ≠ .USING ↔ j = i := by
  constructor
  · intro free
    exact (canPlant_of_free below free).2.resolve_right fun unused => unused (full j below)
  · rintro rfl used
    have state : (s.disarm j).counted.bpState j = .UNUSED := Function.update_self ..
    rw [state] at used
    exact BpState.noConfusion used

/-- With every entry armed a handler returns if a number comes to the entry that it takes off. -/
theorem handled_of_comes (full : ∀ j : Nat, (j : Int) < s.bpCount → s.bpState j = .USING)
    {random : Nat → BitVec 32} {g : Shared} (table : g.bp = s) {drawn later : Nat}
    (after : drawn ≤ later) (comes : s.drawnEntry (random later) = i) :
    ∃ g' drawn', Handled random (s.bpAddr i) g drawn .finished g' drawn' := by
  refine handled_of_drawn overlays armed still table after ?_
  rw [comes]
  exact (free_iff armed full armed.1).mpr rfl

/-- With every entry armed and numbers that come to an entry again and again, there are as many
rounds on its breakpoint as may be. -/
theorem exists_rounds (full : ∀ j : Nat, (j : Int) < s.bpCount → s.bpState j = .USING)
    {random : Nat → BitVec 32} (again : ∀ m, ∃ later, m ≤ later ∧ s.drawnEntry (random later) = i)
    (n : Nat) {g : Shared} (table : g.bp = s) (drawn : Nat) :
    ∃ g' drawn', Rounds random (s.bpAddr i) n g drawn g' drawn' := by
  induction n generalizing g drawn with
  | zero => exact ⟨g, drawn, .none g drawn⟩
  | succ n ih =>
    obtain ⟨later, after, comes⟩ := again drawn
    obtain ⟨h, drawn', handled⟩ := handled_of_comes overlays armed still full table after comes
    obtain ⟨g', drawn'', more⟩ := ih (handled.unchanged overlays armed still full table) drawn'
    exact ⟨g', drawn'', .next handled more⟩

end

/-- In every state of a session that is not stopping, over a list in which no address stands twice:
a thread that comes to an armed breakpoint and whose traps are handled to their end while nobody
else moves finds the breakpoint there again after each of them, whatever is drawn, exactly when
every entry is armed. Then a handler returns exactly when a number comes to the entry that it has
taken off, each that returns leaves the table and the memory as they were, and with numbers that
come to the entry again and again there is no end of them. -/
theorem livelock_iff (s₀ : Bp) (addrList : Nat → Word) (n : Nat)
    (distinct : ∀ i j, i < n → j < n → addrList i = addrList j → i = j) (calls : List LockedCall)
    (g : Shared) (reached : run lockedStep (s₀.bpInit addrList n) calls = some g.bp)
    (still : g.bp.bpStopping = false) (int : n < 2 ^ 31) (i : Nat) (armed : g.bp.Armed i) :
    ((∀ random drawn k g' drawn', Rounds random (g.bp.bpAddr i) k g drawn g' drawn' →
        g.bp.bpAddr i ∈ g'.bp.planted) ↔
      ∀ j < n, g.bp.bpState j = .USING) ∧
    ((∀ j < n, g.bp.bpState j = .USING) → ∀ (random : Nat → BitVec 32) (drawn : Nat),
      ((∃ g' drawn', Rounds random (g.bp.bpAddr i) 1 g drawn g' drawn') ↔
        ∃ later, drawn ≤ later ∧ (random later).toNat % n = i) ∧
      (∀ k g' drawn', Rounds random (g.bp.bpAddr i) k g drawn g' drawn' → g'.bp = g.bp) ∧
      ((∀ m, ∃ later, m ≤ later ∧ (random later).toNat % n = i) →
        ∀ k, ∃ g' drawn', Rounds random (g.bp.bpAddr i) k g drawn g' drawn')) := by
  obtain ⟨overlays, -, count⟩ := run_lockedStep (Bp.overlays_bpInit s₀ addrList n distinct) reached
  have number : g.bp.bpCount = n := by
    rw [count, Bp.bpInit_eq]
  have size : g.bp.bpCount.toNat = n := by omega
  have entry (draw : BitVec 32) : g.bp.drawnEntry draw = draw.toNat % n := by
    rw [drawnEntry_eq (by omega) (by omega), size]
  have full : (∀ j < n, g.bp.bpState j = .USING) →
      ∀ j : Nat, (j : Int) < g.bp.bpCount → g.bp.bpState j = .USING :=
    fun all j below => all j (by omega)
  refine ⟨⟨fun stays j below => ?_, fun all random drawn k g' drawn' rounds => ?_⟩,
    fun all random drawn => ⟨⟨?_, ?_⟩, fun k g' drawn' rounds => ?_, fun again k => ?_⟩⟩
  · by_contra free
    have only (k : Nat) : g.bp.drawnEntry (BitVec.ofNat 32 j) = j := by
      rw [entry, BitVec.toNat_ofNat, Nat.mod_eq_of_lt (a := j) (by omega), Nat.mod_eq_of_lt below]
    have apart : j ≠ i := by
      rintro rfl
      exact free armed.2
    have unused : (g.bp.disarm i).counted.bpState j ≠ .USING := by
      have same : (g.bp.disarm i).counted.bpState j = g.bp.bpState j :=
        Function.update_of_ne apart ..
      rw [same]
      exact free
    obtain ⟨g', drawn', handled⟩ :=
      @handled_of_drawn _ _ _ overlays armed still (fun _ => BitVec.ofNat 32 j) g rfl 0 0 le_rfl
        ((only 0).symm ▸ unused)
    obtain ⟨-, j', ⟨k, -, -, drew⟩, can, result⟩ := handled.planted overlays armed still rfl
    obtain rfl : j = j' := (only 0).symm.trans drew
    have again := stays _ 0 1 g' drawn' (.next handled (.none g' drawn'))
    rw [result, overlays.planted_again armed can] at again
    exact apart again
  · rw [rounds.unchanged overlays armed still (full all) rfl]
    exact ⟨i, armed, rfl⟩
  · rintro ⟨g', drawn', rounds⟩
    cases rounds with
    | next round more =>
      obtain ⟨-, j, ⟨later, after, -, drew⟩, can, -⟩ := round.planted overlays armed still rfl
      obtain rfl : j = i := can.2.resolve_right fun free => free (full all j can.1)
      exact ⟨later, after, (entry _).symm.trans drew⟩
  · rintro ⟨later, after, comes⟩
    obtain ⟨g', drawn', handled⟩ := handled_of_comes overlays armed still (full all) rfl after
      ((entry (random later)).trans comes)
    exact ⟨g', drawn', .next handled (.none g' drawn')⟩
  · exact rounds.unchanged overlays armed still (full all) rfl
  · refine exists_rounds overlays armed still (full all) (fun m => ?_) k rfl drawn
    obtain ⟨later, after, comes⟩ := again m
    exact ⟨later, after, (entry (random later)).trans comes⟩

/-- The only entry of a session is armed, as `start` does without a parameter. -/
theorem livelock_iff_one :
    (∀ random drawn k g' drawn',
      Rounds random 0x1000 k ⟨((Bp.loaded noops).bpInit neighbours 1).arm 0, .loaded⟩ drawn g'
        drawn' → 0x1000 ∈ g'.bp.planted) ∧
    ∀ k, ∃ g' drawn', Rounds (BitVec.ofNat 32) 0x1000 k
      ⟨((Bp.loaded noops).bpInit neighbours 1).arm 0, .loaded⟩ 0 g' drawn' := by
  have only : ∀ j < 1, (((Bp.loaded noops).bpInit neighbours 1).arm 0).bpState j = .USING := by
    decide
  have stuck := livelock_iff (.loaded noops) neighbours 1
    (fun i j below below' _ => by omega) [.add 0 []]
    ⟨((Bp.loaded noops).bpInit neighbours 1).arm 0, .loaded⟩ rfl rfl (by decide) 0 (by decide)
  exact ⟨stuck.1.mpr only,
    (stuck.2 only (BitVec.ofNat 32) 0).2.2 fun m => ⟨m, le_rfl, Nat.mod_one _⟩⟩

end Drddr
