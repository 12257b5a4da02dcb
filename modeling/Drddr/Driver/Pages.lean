import Drddr.Driver.Sessions

/-!
# Writable pages

The breakpoints lie in code, whose pages are read-only. `bp_init` makes the page of every address
of its list writable, and nothing of the driver makes it read-only again while it runs. The driver
is run with a record of the pages that were made writable; each of its steps has a list of the
addresses that it writes a byte at.
-/

namespace Drddr

open Machine

/-- The page that `drddr_memory_rw` and `drddr_memory_ro` round an address down to. -/
def page (p : Word) : Word := p &&& ~~~(1#64 <<< 12 - 1#64)

namespace Bp

variable (s : Bp)

/-- The entry that the locked section of `bp_add` arms. -/
def addEntry (choice : Int) (draws : List (BitVec 32)) : Option Nat :=
  if choice = -1 then
    if s.bpUsageCount = s.bpCount then none else (s.randomPick draws).map fun picked => picked.1
  else if s.bpCount ≤ choice ∨ choice < 0 ∨ s.bpState choice.toNat = .USING then none
  else some choice.toNat

/-- The addresses at which the locked section of `bp_add` writes. -/
def addStores (choice : Int) (draws : List (BitVec 32)) : List Word :=
  (s.addEntry choice draws).toList.map s.bpAddr

/-- The addresses at which `_bp_remove` writes. -/
def removeStores (a : Word) : List Word := (s.findArmed a).toList.map s.bpAddr

/-- The addresses at which the locked section of `bp_clean` writes: those of the armed entries, when
the loop comes to them. -/
def cleanStores : List Word :=
  ((List.range s.bpCount.toNat).filter (s.bpState · = .USING)).map s.bpAddr

end Bp

/-- The addresses at which a step of a handler writes. -/
def HandlerPc.stores (bp : Bp) : HandlerPc → HandlerInput → List Word
  | .claimed a, .tick => bp.removeStores a
  | .rearmLock, .drawn draws => bp.addStores (-1) draws
  | _, _ => []

/-- The addresses at which a step of the control thread writes. -/
def DriverPc.stores (bp : Bp) (draws : List (BitVec 32)) : DriverPc → List Word
  | .clean _ => bp.cleanStores
  | .addLocked choice _ => bp.addStores choice draws
  | _ => []

/-- The addresses at which a step writes. -/
def Driver.stores (s : Driver) : DriverEvent → List Word
  | .handler k input => s.handlers[k]?.toList.flatMap (·.stores s.shared.bp input)
  | .control draws => s.control.stores s.shared.bp draws
  | _ => []

/-- The pages that a step makes writable: in `bp_init`, between the writes of `bp_addr[i]` and of
`bp_state[i]`. -/
def Driver.madeWritable (s : Driver) : DriverEvent → List Word
  | .control _ =>
    match s.control with
    | .initState args i => [page (args.address i)]
    | _ => []
  | _ => []

/-- The driver and the pages. -/
structure Paged where
  driver : Driver
  /-- Pages that have been made writable. -/
  writable : List Word

/-- Run one atomic step and record the pages. -/
def pagedStep (s : Paged) (event : DriverEvent) : Option Paged :=
  (driverStep s.driver event).map fun driver =>
    { driver, writable := s.driver.madeWritable event ++ s.writable }

/-- No page has been made writable when the module has been loaded. -/
def loadPaged (text : Memory) (wp : WpTable) : Paged := ⟨loadDriver text wp, []⟩

/-! ## Nothing else is written -/

namespace Bp

variable {s t : Bp} {a : Word}

/-- The locked section of `bp_add` arms its entry or does nothing. -/
theorem bpAddLocked_addEntry {choice : Int} {draws rest : List (BitVec 32)} {ok : Bool}
    (added : s.bpAddLocked choice draws = some (ok, t, rest)) :
    t = (s.addEntry choice draws).elim s s.arm := by
  unfold bpAddLocked at added
  unfold addEntry
  split at added
  · rename_i random
    rw [if_pos random]
    split at added
    · rename_i full
      rw [if_pos full]
      exact (congrArg (·.2.1) (Option.some.inj added)).symm
    · rename_i room
      rw [if_neg room]
      obtain ⟨picked, drawn, same⟩ := Option.map_eq_some_iff.mp added
      rw [drawn]
      exact (congrArg (·.2.1) same).symm
  · rename_i index
    rw [if_neg index]
    split at added
    · rename_i above
      rw [if_pos (.inl above)]
      exact (congrArg (·.2.1) (Option.some.inj added)).symm
    · rename_i inside
      split at added
      · contradiction
      · rename_i positive
        split at added
        · rename_i used
          rw [if_pos (.inr (.inr used))]
          exact (congrArg (·.2.1) (Option.some.inj added)).symm
        · rename_i free
          have armed : ¬(s.bpCount ≤ choice ∨ choice < 0 ∨ s.bpState choice.toNat = .USING) := by
            simp [inside, positive, free]
          rw [if_neg armed]
          exact (congrArg (·.2.1) (Option.some.inj added)).symm

/-- The locked section of `bp_add` writes at the address of its entry only. -/
theorem text_bpAddLocked {choice : Int} {draws rest : List (BitVec 32)} {ok : Bool}
    (added : s.bpAddLocked choice draws = some (ok, t, rest))
    (outside : a ∉ s.addStores choice draws) : t.text a = s.text a := by
  rw [bpAddLocked_addEntry added]
  unfold addStores at outside
  cases entry : s.addEntry choice draws with
  | none => rfl
  | some i =>
    rw [entry] at outside
    have other : a ≠ s.bpAddr i := by simpa using outside
    exact Function.update_of_ne other ..

/-- `bp_remove` writes at the entry's address only. -/
theorem text_bpRemove {b : Word} (outside : a ∉ s.removeStores b) :
    (s.bpRemove b).2.text a = s.text a := by
  unfold removeStores at outside
  unfold bpRemove
  cases found : s.findArmed b with
  | none => rfl
  | some i =>
    rw [found] at outside
    have other : a ≠ s.bpAddr i := by simpa using outside
    exact Function.update_of_ne other ..

/-- An address that `bp_clean` writes at is that of an armed entry. -/
theorem mem_cleanStores : a ∈ s.cleanStores ↔ ∃ i, s.Armed i ∧ s.bpAddr i = a := by
  unfold cleanStores Armed
  simp only [List.mem_map, List.mem_filter, List.mem_range, decide_eq_true_eq]
  constructor
  · rintro ⟨i, ⟨below, used⟩, same⟩
    exact ⟨i, ⟨by omega, used⟩, same⟩
  · rintro ⟨i, ⟨below, used⟩, same⟩
    exact ⟨i, ⟨by omega, used⟩, same⟩

/-- `bp_clean` writes at the addresses of the armed entries only. -/
theorem text_bpCleanLocked (outside : a ∉ s.cleanStores) : s.bpCleanLocked.text a = s.text a := by
  have apart : ∀ i, s.Armed i → s.bpAddr i ≠ a := fun i armed same =>
    outside (mem_cleanStores.mpr ⟨i, armed, same⟩)
  refine (bpCleanLocked_spec
    (P := fun t => t.text a = s.text a ∧ ∀ i, t.Armed i → t.bpAddr i ≠ a)
    (fun t i ht armed _ => ?_) (fun t ht => ht) ⟨rfl, apart⟩).1.1
  constructor
  · exact (Function.update_of_ne (ht.2 i armed).symm ..).trans ht.1
  · intro k still
    exact ht.2 k (armed_disarm.mp still).2

/-- The entry that is armed is below the count. -/
theorem addEntry_lt {choice : Int} {draws : List (BitVec 32)} {i : Nat} (count : 0 ≤ s.bpCount)
    (entry : s.addEntry choice draws = some i) : (i : Int) < s.bpCount := by
  unfold addEntry at entry
  split at entry
  · split at entry
    · contradiction
    · rename_i room
      obtain ⟨⟨j, rest⟩, drawn, rfl⟩ := Option.map_eq_some_iff.mp entry
      refine (randomPick_spec drawn).1 ?_
      have full : s.bpCount = 0 → s.bpUsageCount = s.bpCount := fun empty =>
        (bpUsageCount_of_empty empty).trans empty.symm
      omega
  · split at entry
    · contradiction
    · rename_i inside
      have same : choice.toNat = i := Option.some.inj entry
      omega

end Bp

/-- A step of a handler writes where it is said to. -/
theorem handlerStep_text {g g' : Shared} {pc pc' : HandlerPc} {input : HandlerInput} {a : Word}
    (stepped : handlerStep g pc input = some (g', pc')) (outside : a ∉ pc.stores g.bp input) :
    g'.bp.text a = g.bp.text a := by
  cases pc with
  | claimed b =>
    cases input with
    | tick =>
      have removed : g'.bp = (g.bp.bpRemove b).2 := by
        rcases g.bp.bpRemove_cases b with ⟨i, -, result⟩ | ⟨-, result⟩
        · simp only [handlerStep, result] at stepped ⊢
          exact congrArg (·.1.bp) (Option.some.inj stepped).symm
        · simp only [handlerStep, result] at stepped ⊢
          exact congrArg (·.1.bp) (Option.some.inj stepped).symm
      rw [removed]
      exact Bp.text_bpRemove outside
    | decoded | drawn => contradiction
  | rearmLock =>
    cases input with
    | drawn draws =>
      obtain ⟨⟨ok, bp, rest⟩, added, same⟩ := Option.map_eq_some_iff.mp stepped
      cases same
      exact Bp.text_bpAddLocked added outside
    | tick | decoded => contradiction
  | removed b =>
    cases handlerStep_effect stepped with
    | quiet | counted => rfl
  | leaving =>
    cases handlerStep_effect stepped with
    | quiet | left => rfl
  | _ =>
    cases handlerStep_effect stepped
    rfl

/-- A step of the control thread writes where its stores are and nowhere else. -/
theorem controlStep_text {g g' : Shared} {running running' : Bool} {pc pc' : DriverPc}
    {draws : List (BitVec 32)} {a : Word}
    (moved : controlStep g running draws pc = some (g', running', pc'))
    (outside : a ∉ pc.stores g.bp draws) : g'.bp.text a = g.bp.text a := by
  cases pc with
  | clean next =>
    cases Option.some.inj moved
    exact Bp.text_bpCleanLocked outside
  | addLocked choice choices =>
    obtain ⟨⟨ok, bp, rest⟩, added, same⟩ := Option.map_eq_some_iff.mp moved
    cases same
    exact Bp.text_bpAddLocked added outside
  | _ =>
    cases controlStep_move moved <;> rfl

/-- A step of the driver writes where its stores are and nowhere else. -/
theorem driverStep_text {s t : Driver} {event : DriverEvent} {a : Word}
    (stepped : driverStep s event = some t) (outside : a ∉ s.stores event) :
    t.shared.bp.text a = s.shared.bp.text a := by
  cases event with
  | trap ip =>
    cases Option.some.inj stepped
    rfl
  | handler k input =>
    obtain ⟨⟨g, handlers⟩, moved, rfl⟩ := Option.map_eq_some_iff.mp stepped
    obtain ⟨-, pc, pc', -, here, -, -, act⟩ := poolStep_cases moved
    refine handlerStep_text act fun inside => outside ?_
    simpa [Driver.stores, here] using inside
  | start args =>
    obtain ⟨shared, handlers, running, control⟩ := s
    cases control with
    | idle =>
      cases Option.some.inj stepped
      rfl
    | _ => contradiction
  | stop =>
    obtain ⟨shared, handlers, running, control⟩ := s
    cases control with
    | idle =>
      cases Option.some.inj stepped
      rfl
    | _ => contradiction
  | control draws =>
    obtain ⟨⟨g, running, pc⟩, moved, rfl⟩ := Option.map_eq_some_iff.mp stepped
    exact controlStep_text moved outside

/-! ## Every step -/

variable {s t : Paged} {text : Memory}

/-- The entries whose pages have been made writable: those that `bp_init` has come past, and then
all of the list. -/
def Driver.prepared (s : Driver) : Nat :=
  match s.control with
  | .initAddr _ i | .initState _ i => i
  | .initStopping args => args.addresscnt
  | _ => if s.launched then s.shared.bp.bpCount.toNat else 0

/-- The pages of the prepared entries are writable. -/
def Prepared (s : Paged) : Prop :=
  ∀ i < s.driver.prepared, page (s.driver.shared.bp.bpAddr i) ∈ s.writable

/-- A step of the control thread prepares what it adds. -/
theorem Prepared.control {d : Driver} {writable : List Word} {g : Shared} {running : Bool}
    {pc : DriverPc} {draws : List (BitVec 32)} (prepared : Prepared ⟨d, writable⟩)
    (inv : SessionsInvariant text d) (count : 0 ≤ d.shared.bp.bpCount)
    (moved : controlStep d.shared d.running draws d.control = some (g, running, pc)) :
    Prepared ⟨{ d with shared := g, running := running, control := pc },
      d.madeWritable (.control draws) ++ writable⟩ := by
  obtain ⟨shared, handlers, wasRunning, control⟩ := d
  have nothing {g : Shared} {running : Bool} {pc : DriverPc} {writable : List Word}
      (unprepared : Driver.prepared ⟨g, handlers, running, pc⟩ = 0) :
      Prepared ⟨⟨g, handlers, running, pc⟩, writable⟩ :=
    fun i below => absurd (unprepared ▸ below) (Nat.not_lt_zero i)
  cases controlStep_move moved with
  | clean | drained | wait | wpClean | stopped | restart | startClean | initCount =>
    exact nothing rfl
  | initAddr args i inside =>
    intro j below
    have other : j ≠ i := Nat.ne_of_lt below
    show page (Function.update shared.bp.bpAddr i (args.address i) j) ∈ writable
    rw [Function.update_of_ne other]
    exact prepared j below
  | initDone args i outside =>
    intro j below
    exact prepared j (Nat.lt_of_lt_of_le below (Nat.not_lt.mp outside))
  | initState args i =>
    have lists : Lists args (i + 1) shared.bp := inv.list
    intro j below
    by_cases last : j = i
    · show page (shared.bp.bpAddr j) ∈ page (args.address i) :: writable
      rw [last, lists.addr i (Nat.lt_succ_self i)]
      exact List.mem_cons_self
    · have before : j < i := Nat.lt_of_le_of_ne (Nat.le_of_lt_succ below) last
      exact List.mem_cons_of_mem _ (prepared j before)
  | initStopping args =>
    have lists : Lists args args.addresscnt shared.bp := inv.list
    intro j below
    have inside : j < shared.bp.bpCount.toNat := below
    rw [lists.count, Int.toNat_natCast] at inside
    exact prepared j inside
  | added | shut | lock | launch => exact prepared
  | add choice choices ok bp draws rest added =>
    have same := Bp.sameList_bpAddLocked count added
    intro j below
    show page (bp.bpAddr j) ∈ writable
    rw [same.addr]
    refine prepared j ?_
    have inside : j < bp.bpCount.toNat := below
    rw [same.count] at inside
    exact inside

/-- Every step keeps it that the pages of the list up to the place of `bp_init` are writable. -/
theorem Prepared.step {event : DriverEvent} (prepared : Prepared s)
    (inv : SessionsInvariant text s.driver) (launched : Launched s.driver)
    (stepped : pagedStep s event = some t) : Prepared t := by
  obtain ⟨driver, step, rfl⟩ := Option.map_eq_some_iff.mp stepped
  obtain ⟨d, writable⟩ := s
  cases event with
  | trap ip =>
    cases Option.some.inj step
    exact prepared
  | handler k input =>
    obtain ⟨⟨g, handlers⟩, moved, rfl⟩ := Option.map_eq_some_iff.mp step
    obtain ⟨-, pc, pc', -, -, -, -, act⟩ := poolStep_cases moved
    have same := (handlerStep_effect act).sameList launched.count
    have count : Driver.prepared { d with shared := g, handlers := handlers } = d.prepared := by
      unfold Driver.prepared Driver.launched
      rw [same.count]
    intro i below
    show page (g.bp.bpAddr i) ∈ writable
    rw [same.addr]
    exact prepared i (count ▸ below)
  | start args =>
    obtain ⟨shared, handlers, running, control⟩ := d
    cases control with
    | idle =>
      cases Option.some.inj step
      cases running with
      | true => exact prepared
      | false => exact prepared
    | _ => contradiction
  | stop =>
    obtain ⟨shared, handlers, running, control⟩ := d
    cases control with
    | idle =>
      cases Option.some.inj step
      cases running with
      | true => exact prepared
      | false => exact prepared
    | _ => contradiction
  | control draws =>
    obtain ⟨⟨g, running, pc⟩, moved, rfl⟩ := Option.map_eq_some_iff.mp step
    exact prepared.control inv launched.count moved

/-- In the open phase the whole list is prepared. -/
theorem prepared_of_launched {d : Driver} (isOpen : d.launched = true) :
    d.prepared = d.shared.bp.bpCount.toNat := by
  obtain ⟨shared, handlers, running, control⟩ := d
  cases control with
  | idle =>
    have runs : running = true := isOpen
    subst runs
    rfl
  | clean | adding | addLocked | launch => rfl
  | _ => exact Bool.noConfusion isOpen

/-- In the open phase every page of the list is writable. -/
theorem Prepared.entry {d : Driver} {writable : List Word} (prepared : Prepared ⟨d, writable⟩)
    (isOpen : d.launched = true) {i : Nat} (below : (i : Int) < d.shared.bp.bpCount) :
    page (d.shared.bp.bpAddr i) ∈ writable := by
  refine prepared i ?_
  rw [prepared_of_launched isOpen]
  omega

/-- A handler writes at a prepared entry, if at all. -/
theorem Prepared.handler {d : Driver} {writable : List Word} {k : Nat} {input : HandlerInput}
    (prepared : Prepared ⟨d, writable⟩) (inv : SessionsInvariant text d) (kept : DriverInvariant d)
    (count : 0 ≤ d.shared.bp.bpCount) (orderly : Orderly d (.handler k input)) {a : Word}
    (stored : a ∈ d.stores (.handler k input)) : page a ∈ writable := by
  obtain ⟨pc, here, inside⟩ := List.mem_flatMap.mp stored
  have mine : d.handlers[k]? = some pc := Option.mem_toList.mp here
  cases pc with
  | claimed b =>
    cases input with
    | tick =>
      obtain ⟨i, found, rfl⟩ := List.mem_map.mp inside
      have armed := (Bp.findArmed_eq_some.mp (Option.mem_toList.mp found)).1
      cases phase : d.launched with
      | true => exact prepared.entry phase armed.1
      | false => exact absurd armed.2 ((inv.bare phase).free i)
    | decoded | drawn => exact absurd inside (List.not_mem_nil)
  | rearmLock =>
    cases input with
    | drawn draws =>
      obtain ⟨i, added, rfl⟩ := List.mem_map.mp inside
      have armed := Option.mem_toList.mp added
      cases phase : d.launched with
      | true => exact prepared.entry phase (Bp.addEntry_lt count armed)
      | false =>
        have full := full_of_orderly kept phase orderly mine
        rw [Bp.addEntry, if_pos rfl, if_pos full] at armed
        contradiction
    | tick | decoded => exact absurd inside (List.not_mem_nil)
  | _ => cases input <;> exact absurd inside (List.not_mem_nil)

/-- The control thread stores in writable pages only. -/
theorem Prepared.controlStores {d : Driver} {writable : List Word} {draws : List (BitVec 32)}
    (prepared : Prepared ⟨d, writable⟩) (count : 0 ≤ d.shared.bp.bpCount) {a : Word}
    (stored : a ∈ d.stores (.control draws)) : page a ∈ writable := by
  obtain ⟨shared, handlers, running, control⟩ := d
  cases control with
  | clean next =>
    obtain ⟨i, armed, rfl⟩ := Bp.mem_cleanStores.mp stored
    exact prepared.entry rfl armed.1
  | addLocked choice choices =>
    obtain ⟨i, added, rfl⟩ := List.mem_map.mp stored
    exact prepared.entry rfl (Bp.addEntry_lt count (Option.mem_toList.mp added))
  | _ => exact absurd stored List.not_mem_nil

/-! ## Every run -/

/-- The step of the driver is an orderly one. -/
def OrderlyPaged (s : Paged) (event : DriverEvent) : Prop := Orderly s.driver event

instance (s : Paged) (event : DriverEvent) : Decidable (OrderlyPaged s event) :=
  inferInstanceAs (Decidable (Orderly s.driver event))

/-- What holds in every state of an orderly run. -/
structure PagedInvariant (text : Memory) (s : Paged) : Prop where
  sessions : SessionsInvariant text s.driver
  driver : DriverInvariant s.driver
  launched : Launched s.driver
  prepared : Prepared s

/-- Every orderly step keeps the invariant of the pages. -/
theorem PagedInvariant.step {event : DriverEvent} (inv : PagedInvariant text s)
    (orderly : OrderlyPaged s event) (stepped : pagedStep s event = some t) :
    PagedInvariant text t := by
  have prepared := inv.prepared.step inv.sessions inv.launched stepped
  obtain ⟨driver, step, rfl⟩ := Option.map_eq_some_iff.mp stepped
  exact ⟨inv.sessions.step inv.driver inv.launched orderly step, inv.driver.step step,
    inv.launched.step step, prepared⟩

/-- The invariant of the pages holds when the module has been loaded. -/
theorem pagedInvariant_load (text : Memory) (wp : WpTable) :
    PagedInvariant text (loadPaged text wp) :=
  ⟨sessionsInvariant_load text wp, driverInvariant_load text wp, launched_load text wp,
    fun _ below => absurd below (Nat.not_lt_zero _)⟩

/-- In every orderly run, every byte that a step writes lies in a page that `bp_init` has made
writable before, and no other byte of the memory changes. -/
theorem stores_writable (text : Memory) (wp : WpTable) (events : List DriverEvent) (s : Paged)
    (orderly : Admits pagedStep OrderlyPaged (loadPaged text wp) events)
    (ran : run pagedStep (loadPaged text wp) events = some s) (event : DriverEvent)
    (next : OrderlyPaged s event) :
    (∀ a ∈ s.driver.stores event, page a ∈ s.writable) ∧
      ∀ t, pagedStep s event = some t → ∀ a, a ∉ s.driver.stores event →
        t.driver.shared.bp.text a = s.driver.shared.bp.text a := by
  have inv : PagedInvariant text s :=
    run_admitted (fun _ _ _ inv ok stepped => PagedInvariant.step inv ok stepped)
      (pagedInvariant_load text wp) orderly ran
  constructor
  · intro a stored
    cases event with
    | handler k input =>
      exact inv.prepared.handler inv.sessions inv.driver inv.launched.count next stored
    | control draws => exact inv.prepared.controlStores inv.launched.count stored
    | trap | start | stop => exact absurd stored List.not_mem_nil
  · intro t stepped a outside
    obtain ⟨driver, step, rfl⟩ := Option.map_eq_some_iff.mp stepped
    exact driverStep_text step outside

/-- A handler takes its breakpoint back while the session is being stopped. -/
theorem stores_writable_remove :
    ∃ s, run pagedStep (loadPaged noops .loaded)
        (.start oneAddress :: List.replicate 10 (.control []) ++
          [.trap 0x1001, .handler 0 .tick, .stop]) = some s ∧
      s.driver.stores (.handler 0 .tick) = [0x1000] ∧ page 0x1000 ∈ s.writable := by
  refine ⟨_, rfl, rfl, ?_⟩
  refine (stores_writable noops .loaded
    (.start oneAddress :: List.replicate 10 (.control []) ++
      [.trap 0x1001, .handler 0 .tick, .stop]) _ ?_ rfl (.handler 0 .tick) ?_).1 0x1000 ?_
  · decide
  · decide
  · decide

end Drddr
