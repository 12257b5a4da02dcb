import Drddr.Driver.Live

/-!
# Traps across restarts

A trap waits for its `bp_check`, and nobody counts it meanwhile: a `stop` and the next `start`
may come in between and give the table another list. The driver is run with a record of the
addresses at which the breakpoint in memory is one of `bp_add`, of the entries that have saved such
a breakpoint, and of the traps that were taken on one. A breakpoint of the kernel itself that
`_bp_remove` puts back is none of `bp_add`.
-/

namespace Drddr

open Machine

/-- The addresses of the entries that a step armed. -/
def plantedBy (before after : Bp) : List Word :=
  ((List.range after.bpCount.toNat).filter fun i =>
    before.bpState i ≠ .USING ∧ after.bpState i = .USING).map after.bpAddr

/-- The step can put bytes back: it is one of a handler, which comes to `bp_remove`, or the locked
section of `bp_clean`. `bp_init` marks entries as unused and puts nothing back. -/
def Driver.putsBack (s : Driver) : DriverEvent → Bool
  | .handler _ _ => true
  | .control _ =>
    match s.control with
    | .clean _ => true
    | _ => false
  | .trap _ | .start _ | .stop => false

/-- The entries whose byte a step puts back, in order. -/
def Driver.putBackBy (s : Driver) (event : DriverEvent) (after : Bp) : List Nat :=
  if s.putsBack event then
    (List.range after.bpCount.toNat).filter fun i =>
      s.shared.bp.bpState i = .USING ∧ after.bpState i ≠ .USING
  else []

/-- The driver and the record. -/
structure Traced where
  driver : Driver
  /-- Addresses at which the last write was of `bp_add`, or put back a breakpoint of `bp_add`. -/
  planted : List Word
  /-- The entries whose `bp_backup` is such a breakpoint. -/
  saved : Nat → Bool
  /-- For each handler, the planted breakpoint that it was entered by, if it was. -/
  own : List (Option Word)

/-- The byte at an address is a breakpoint that `bp_add` has planted. -/
def Traced.plantedAt (s : Traced) (a : Word) : Bool :=
  s.planted.contains a && s.driver.shared.bp.text a == INT3

/-- The record when the byte of an entry is put back: what it has saved stands there again. -/
def putBack (addr : Nat → Word) (saved : Nat → Bool) (planted : List Word) (i : Nat) : List Word :=
  if saved i then addr i :: planted else planted.filter (· ≠ addr i)

/-- The record of the planted breakpoints after a step. -/
def Traced.plantedAfter (s : Traced) (event : DriverEvent) (after : Bp) : List Word :=
  plantedBy s.driver.shared.bp after ++
    (s.driver.putBackBy event after).foldl (putBack after.bpAddr s.saved) s.planted

/-- An entry that a step arms saves the byte at its address. -/
def Traced.savedAfter (s : Traced) (after : Bp) (i : Nat) : Bool :=
  if s.driver.shared.bp.bpState i ≠ .USING ∧ after.bpState i = .USING then
    s.plantedAt (after.bpAddr i)
  else s.saved i

/-- A trap is recorded with the breakpoint that was executed. -/
def Traced.ownAfter (s : Traced) : DriverEvent → List (Option Word)
  | .trap ip => s.own ++ [if s.plantedAt (ip - 1) then some (ip - 1) else none]
  | _ => s.own

/-- Run one atomic step and record what it plants and what it traps on. -/
def tracedStep (s : Traced) (event : DriverEvent) : Option Traced :=
  (driverStep s.driver event).map fun driver =>
    { driver
      planted := s.plantedAfter event driver.shared.bp
      saved := s.savedAfter driver.shared.bp
      own := s.ownAfter event }

/-- The record changes no run. -/
theorem traced_run (s : Traced) (events : List DriverEvent) :
    (run tracedStep s events).map (·.driver) = run driverStep s.driver events := by
  induction events generalizing s with
  | nil => rfl
  | cons event events ih =>
    simp only [run, tracedStep]
    cases driverStep s.driver event with
    | none => rfl
    | some t => exact ih _

/-! ## Addresses that the table must keep -/

/-- Traps on a planted breakpoint that wait for their `bp_check`. -/
def Traced.pending (s : Traced) : List Word :=
  (s.driver.handlers.zip s.own).filterMap fun
    | (.trapped ip, some _) => some (ip - 1)
    | _ => none

/-- A planted breakpoint is in memory, or a trap on one waits for its `bp_check`. -/
def Traced.live (s : Traced) : List Word := s.planted.filter s.plantedAt ++ s.pending

/-- The table after the next step, if that is one of the two writes of `bp_init` to the list. -/
def Driver.relisted (s : Driver) : DriverEvent → Bp
  | .control _ =>
    match s.control with
    | .initCount args => { s.shared.bp with bpCount := args.addresscnt }
    | .initAddr args i =>
      if i < args.addresscnt then
        { s.shared.bp with bpAddr := Function.update s.shared.bp.bpAddr i (args.address i) }
      else s.shared.bp
    | _ => s.shared.bp
  | _ => s.shared.bp

/-- No write of `bp_init` takes a live address out of the table. -/
def KeepsLive (s : Traced) (event : DriverEvent) : Prop :=
  ∀ a ∈ s.live, s.driver.shared.bp.bpCheck a = true → (s.driver.relisted event).bpCheck a = true

instance (s : Traced) (event : DriverEvent) : Decidable (KeepsLive s event) :=
  inferInstanceAs (Decidable (∀ a ∈ s.live, _ → _))

/-- A handler for a trap on `a` has not called `old_do_int3`, and wherever it knows where the
thread will resume, that is `a`. -/
def HandlerPc.resumesAt (a : Word) : HandlerPc → Prop
  | .passed _ => False
  | .trapped ip => ip - 1 = a
  | .claimed b | .removed b | .diverted b | .resumed b => b = a
  | _ => True

/-- A trap that waits is a handler at its `bp_check` with its breakpoint. -/
theorem mem_pending {s : Traced} {a : Word} : a ∈ s.pending ↔ ∃ k : Nat, ∃ ip b,
    s.driver.handlers[k]? = some (.trapped ip) ∧ s.own[k]? = some (some b) ∧ ip - 1 = a := by
  rw [Traced.pending, List.mem_filterMap]
  constructor
  · rintro ⟨⟨pc, own⟩, member, same⟩
    obtain ⟨k, there⟩ := List.mem_iff_getElem?.mp member
    obtain ⟨here, mine⟩ := List.getElem?_zip_eq_some.mp there
    cases pc with
    | trapped ip =>
      cases own with
      | some b =>
        cases same
        exact ⟨k, ip, b, here, mine, rfl⟩
      | none => contradiction
    | _ => contradiction
  · rintro ⟨k, ip, b, here, mine, rfl⟩
    have there : (s.driver.handlers.zip s.own)[k]? = some (.trapped ip, some b) :=
      List.getElem?_zip_eq_some.mpr ⟨here, mine⟩
    exact ⟨_, List.mem_of_getElem? there, rfl⟩

/-- The two reasons why an address must stay in the table. -/
theorem mem_live {s : Traced} {a : Word} :
    a ∈ s.live ↔ s.plantedAt a = true ∨ a ∈ s.pending := by
  simp only [Traced.live, List.mem_append, List.mem_filter]
  refine or_congr_left ⟨fun both => both.2, fun at' => ⟨?_, at'⟩⟩
  simp only [Traced.plantedAt, Bool.and_eq_true, List.contains_iff_mem] at at'
  exact at'.1

/-- What a step plants is in the table after it. -/
theorem listed_of_plantedBy {before after : Bp} {a : Word} (planted : a ∈ plantedBy before after) :
    after.Listed a := by
  obtain ⟨i, member, rfl⟩ := List.mem_map.mp planted
  have inside := List.mem_range.mp (List.mem_filter.mp member).1
  exact ⟨i, by omega, rfl⟩

/-- What is put back is recorded for the address of its entry only. -/
theorem mem_foldl_putBack {addr : Nat → Word} {saved : Nat → Bool} {entries : List Nat}
    {planted : List Word} {a : Word} (member : a ∈ entries.foldl (putBack addr saved) planted) :
    a ∈ planted ∨ ∃ i ∈ entries, addr i = a := by
  induction entries generalizing planted with
  | nil => exact .inl member
  | cons i entries ih =>
    rcases ih member with before | ⟨j, later, same⟩
    · rw [putBack] at before
      split at before
      · rcases List.mem_cons.mp before with own | old
        · exact .inr ⟨i, List.mem_cons_self, own.symm⟩
        · exact .inl old
      · exact .inl (List.mem_of_mem_filter before)
    · exact .inr ⟨j, List.mem_cons_of_mem i later, same⟩

/-- Only entries of the table after a step are put back by it. -/
theorem lt_of_mem_putBackBy {s : Driver} {event : DriverEvent} {after : Bp} {i : Nat}
    (member : i ∈ s.putBackBy event after) : (i : Int) < after.bpCount := by
  rw [Driver.putBackBy] at member
  split at member
  · have inside := List.mem_range.mp (List.mem_filter.mp member).1
    omega
  · contradiction

/-- A breakpoint that is recorded after a step was recorded before it, or is in the table. -/
theorem listed_of_plantedAfter {s : Traced} {event : DriverEvent} {after : Bp} {a : Word}
    (recorded : a ∈ s.plantedAfter event after) : a ∈ s.planted ∨ after.Listed a := by
  rcases List.mem_append.mp recorded with new | old
  · exact .inr (listed_of_plantedBy new)
  · refine (mem_foldl_putBack old).imp_right fun ⟨i, member, here⟩ => ?_
    exact ⟨i, lt_of_mem_putBackBy member, here⟩

/-- Across a step that writes at listed addresses, a planted breakpoint is an old one or in the
table. -/
theorem plantedAt_of_step {s t : Traced} {event : DriverEvent} {a : Word}
    (stepped : tracedStep s event = some t)
    (text : ∀ a, ¬t.driver.shared.bp.Listed a →
      t.driver.shared.bp.text a = s.driver.shared.bp.text a)
    (planted : t.plantedAt a = true) : s.plantedAt a = true ∨ t.driver.shared.bp.Listed a := by
  obtain ⟨driver, -, rfl⟩ := Option.map_eq_some_iff.mp stepped
  by_cases listed : driver.shared.bp.Listed a
  · exact .inr listed
  · simp only [Traced.plantedAt, Bool.and_eq_true, List.contains_iff_mem, beq_iff_eq] at planted
    obtain ⟨recorded, here⟩ := planted
    have old : a ∈ s.planted := (listed_of_plantedAfter recorded).resolve_right listed
    have there : s.driver.shared.bp.text a = INT3 := (text a listed).symm.trans here
    exact .inl (by simp [Traced.plantedAt, old, there])

/-! ## One step -/

/-- No step leads back to the `bp_check`, and one that finds its breakpoint in the table keeps
to its address. -/
theorem handlerStep_resumesAt {g g' : Shared} {pc pc' : HandlerPc} {input : HandlerInput} {a : Word}
    (mine : pc.resumesAt a) (listed : ∀ ip, pc = .trapped ip → g.bp.Listed a)
    (stepped : handlerStep g pc input = some (g', pc')) : pc'.resumesAt a := by
  cases handlerStep_move stepped with
  | pass ip absent =>
    have found : g.bp.bpCheck (ip - 1) = true := Bp.bpCheck_eq_true.mpr (mine ▸ listed ip rfl)
    exact absurd (found.symm.trans absent) (by decide)
  | claim | remove | miss | count | refuse => exact mine
  | _ => trivial

/-- A handler passes its `bp_check` once. -/
theorem handlerStep_ne_trapped {g g' : Shared} {pc pc' : HandlerPc} {input : HandlerInput}
    (stepped : handlerStep g pc input = some (g', pc')) (ip : Word) : pc' ≠ .trapped ip := by
  cases handlerStep_move stepped with
  | _ => nofun

/-- A step of the control thread makes the write to the list that it is at, and no other; memory
off the new list stays. -/
theorem controlStep_relisted {s : Driver} {g : Shared} {running : Bool} {pc : DriverPc}
    {draws : List (BitVec 32)} (count : 0 ≤ s.shared.bp.bpCount)
    (moved : controlStep s.shared s.running draws s.control = some (g, running, pc)) :
    g.bp.bpAddr = (s.relisted (.control draws)).bpAddr ∧
      g.bp.bpCount = (s.relisted (.control draws)).bpCount ∧
      ∀ a, ¬g.bp.Listed a → g.bp.text a = s.shared.bp.text a := by
  obtain ⟨shared, handlers, wasRunning, control⟩ := s
  have sameList {bp : Bp} (list : shared.bp.SameList bp) : bp.bpAddr = shared.bp.bpAddr ∧
      bp.bpCount = shared.bp.bpCount ∧ ∀ a, ¬bp.Listed a → bp.text a = shared.bp.text a :=
    ⟨list.addr, list.count, fun a off =>
      list.text a fun listed => off ((Bp.listed_congr list.addr list.count).mpr listed)⟩
  cases controlStep_move moved with
  | clean next => exact sameList Bp.sameList_bpCleanLocked
  | add choice choices ok bp draws rest added =>
    exact sameList (Bp.sameList_bpAddLocked count added)
  | initAddr args i inside =>
    simp only [Driver.relisted, if_pos inside]
    exact ⟨trivial, trivial, fun _ _ => trivial⟩
  | initDone args i outside =>
    simp only [Driver.relisted, if_neg outside]
    exact ⟨trivial, trivial, fun _ _ => trivial⟩
  | _ => exact ⟨rfl, rfl, fun _ _ => rfl⟩

/-! ## Every run -/

/-- Every step keeps it that each handler has a record. -/
theorem tracedStep_length {s t : Traced} {event : DriverEvent}
    (length : s.own.length = s.driver.handlers.length) (stepped : tracedStep s event = some t) :
    t.own.length = t.driver.handlers.length := by
  obtain ⟨driver, moved, rfl⟩ := Option.map_eq_some_iff.mp stepped
  cases event with
  | trap ip =>
    cases Option.some.inj moved
    simp [Traced.ownAfter, length]
  | handler j input =>
    obtain ⟨⟨g, handlers⟩, advanced, rfl⟩ := Option.map_eq_some_iff.mp moved
    obtain ⟨pc, pc', -, rfl, -⟩ := poolStep_set advanced
    simp [Traced.ownAfter, length]
  | start args | stop =>
    simp only [driverStep] at moved
    split at moved
    · cases Option.some.inj moved
      exact length
    · contradiction
  | control draws =>
    obtain ⟨next, -, rfl⟩ := Option.map_eq_some_iff.mp moved
    exact length

/-- Every address that must stay in the table is in it, and every handler for a planted
breakpoint keeps to its address. -/
structure Kept (s : Traced) : Prop where
  length : s.own.length = s.driver.handlers.length
  listed : ∀ a ∈ s.live, s.driver.shared.bp.Listed a
  resumes : ∀ (k : Nat) a pc, s.own[k]? = some (some a) → s.driver.handlers[k]? = some pc →
    pc.resumesAt a

/-- The table keeps what was live, and no trap comes to wait that was not. -/
theorem live_listed {s t : Traced} {event : DriverEvent}
    (stepped : tracedStep s event = some t)
    (text : ∀ a, ¬t.driver.shared.bp.Listed a →
      t.driver.shared.bp.text a = s.driver.shared.bp.text a)
    (relisted : ∀ a ∈ s.live, t.driver.shared.bp.Listed a)
    (pending : ∀ a ∈ t.pending, a ∈ s.live) : ∀ a ∈ t.live, t.driver.shared.bp.Listed a := by
  intro a live
  cases mem_live.mp live with
  | inl planted =>
    cases plantedAt_of_step stepped text planted with
    | inl before => exact relisted a (mem_live.mpr (.inl before))
    | inr listed => exact listed
  | inr waits => exact relisted a (pending a waits)

/-- A trap that begins is recorded for the breakpoint that is planted where it has come from. -/
theorem Kept.trap {s t : Traced} {ip : Word} (inv : Kept s)
    (stepped : tracedStep s (.trap ip) = some t) : Kept t := by
  have length := tracedStep_length inv.length stepped
  obtain ⟨driver, moved, rfl⟩ := Option.map_eq_some_iff.mp stepped
  cases Option.some.inj moved
  have trapped {a : Word} (mine : (s.ownAfter (.trap ip))[s.driver.handlers.length]? =
      some (some a)) : ip - 1 = a ∧ s.plantedAt a = true := by
    rw [← inv.length, Traced.ownAfter, List.getElem?_concat_length] at mine
    split at mine
    · rename_i planted
      cases mine
      exact ⟨rfl, planted⟩
    · cases Option.some.inj mine
  -- The handlers that were there before keep their records.
  have older {k : Nat} {pc : HandlerPc} {own : Option Word}
      (here : s.driver.handlers[k]? = some pc) (mine : (s.ownAfter (.trap ip))[k]? = some own) :
      s.own[k]? = some own := by
    have inside := (List.getElem?_eq_some_iff.mp here).1
    rwa [Traced.ownAfter, List.getElem?_append_left (inv.length ▸ inside)] at mine
  refine ⟨length, live_listed stepped (fun _ _ => rfl) inv.listed ?_, ?_⟩
  · intro a waits
    obtain ⟨k, ip', b, here, mine, same⟩ := mem_pending.mp waits
    rcases getElem?_started.mp here with old | ⟨rfl, new⟩
    · exact mem_live.mpr (.inr (mem_pending.mpr ⟨k, ip', b, old, older old mine, same⟩))
    · cases new
      obtain ⟨rfl, planted⟩ := trapped mine
      exact mem_live.mpr (.inl (same ▸ planted))
  · intro k a pc mine here
    rcases getElem?_started.mp here with old | ⟨rfl, rfl⟩
    · exact inv.resumes k a pc (older old mine) old
    · exact (trapped mine).1

/-- A step of a handler leaves the list, and the handler goes on with its own breakpoint. -/
theorem Kept.handler {s t : Traced} {j : Nat} {input : HandlerInput} (inv : Kept s)
    (launched : Launched s.driver) (stepped : tracedStep s (.handler j input) = some t) :
    Kept t := by
  have length := tracedStep_length inv.length stepped
  obtain ⟨driver, moved, rfl⟩ := Option.map_eq_some_iff.mp stepped
  obtain ⟨⟨g, handlers⟩, advanced, rfl⟩ := Option.map_eq_some_iff.mp moved
  obtain ⟨pc, pc', found, rfl, act⟩ := poolStep_set advanced
  have inside := (List.getElem?_eq_some_iff.mp found).1
  have list : s.driver.shared.bp.SameList g.bp :=
    (handlerStep_effect act).sameList launched.count
  have sameListed (a : Word) : g.bp.Listed a ↔ s.driver.shared.bp.Listed a :=
    Bp.listed_congr list.addr list.count
  refine ⟨length, live_listed stepped ?_ ?_ ?_, ?_⟩
  · exact fun a off => list.text a fun listed => off ((sameListed a).mpr listed)
  · exact fun a live => (sameListed a).mpr (inv.listed a live)
  · intro a waits
    obtain ⟨k, ip, b, here, mine, same⟩ := mem_pending.mp waits
    change (s.driver.handlers.set j pc')[k]? = _ at here
    by_cases moved : k = j
    · subst moved
      rw [List.getElem?_set_self inside] at here
      exact absurd (Option.some.inj here) (handlerStep_ne_trapped act ip)
    · rw [List.getElem?_set_ne (Ne.symm moved)] at here
      exact mem_live.mpr (.inr (mem_pending.mpr ⟨k, ip, b, here, mine, same⟩))
  · intro k a pc'' mine here
    change (s.driver.handlers.set j pc')[k]? = _ at here
    by_cases moved : k = j
    · subst moved
      rw [List.getElem?_set_self inside] at here
      obtain rfl := Option.some.inj here
      have before := inv.resumes k a pc mine found
      refine handlerStep_resumesAt before (fun ip waits => ?_) act
      subst waits
      exact inv.listed a (mem_live.mpr (.inr (mem_pending.mpr ⟨k, ip, a, found, mine, before⟩)))
    · rw [List.getElem?_set_ne (Ne.symm moved)] at here
      exact inv.resumes k a pc'' mine here

/-- A step of the control thread that keeps live addresses in the table takes nothing from any
handler. -/
theorem Kept.control {s t : Traced} {draws : List (BitVec 32)} (inv : Kept s)
    (launched : Launched s.driver) (keeps : KeepsLive s (.control draws))
    (stepped : tracedStep s (.control draws) = some t) : Kept t := by
  have length := tracedStep_length inv.length stepped
  obtain ⟨driver, moved, rfl⟩ := Option.map_eq_some_iff.mp stepped
  obtain ⟨⟨g, running, pc⟩, advanced, rfl⟩ := Option.map_eq_some_iff.mp moved
  obtain ⟨addr, count, text⟩ := controlStep_relisted launched.count advanced
  refine ⟨length, live_listed stepped text ?_ ?_, inv.resumes⟩
  · intro a live
    have kept := keeps a live (Bp.bpCheck_eq_true.mpr (inv.listed a live))
    exact (Bp.listed_congr addr count).mpr (Bp.bpCheck_eq_true.mp kept)
  · exact fun a waits => mem_live.mpr (.inr waits)

/-- Every step that keeps live addresses in the table keeps the invariant. -/
theorem Kept.step {s t : Traced} {event : DriverEvent} (inv : Kept s) (launched : Launched s.driver)
    (keeps : KeepsLive s event) (stepped : tracedStep s event = some t) : Kept t := by
  cases event with
  | trap ip => exact inv.trap stepped
  | handler j input => exact inv.handler launched stepped
  | control draws => exact inv.control launched keeps stepped
  | start args | stop =>
    have length := tracedStep_length inv.length stepped
    obtain ⟨driver, moved, rfl⟩ := Option.map_eq_some_iff.mp stepped
    simp only [driverStep] at moved
    split at moved
    · cases Option.some.inj moved
      exact ⟨length, live_listed stepped (fun _ _ => rfl) inv.listed
        (fun a waits => mem_live.mpr (.inr waits)), inv.resumes⟩
    · contradiction

/-- The handler of a trap on a planted breakpoint has called `old_do_int3`. -/
def Traced.lost (s : Traced) : Prop :=
  ∃ (k : Nat) (a ip : Word), s.own[k]? = some (some a) ∧ s.driver.handlers[k]? = some (.passed ip)

end Drddr
