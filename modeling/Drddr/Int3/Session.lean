import Drddr.Bp.Overlay
import Drddr.Int3.Handler
import Drddr.Machine.Pool

/-!
# One session under every interleaving

A session is what happens between one `bp_init` and the next. First the table alone, whose
locked sections any thread may run in any order; then the whole session: any number of
handlers, started by traps, and the control thread that plants the first breakpoints and
later calls `bp_clean`. In the latter each unlocked read is a step of its own.
-/

namespace Drddr

open Machine

/-! ## The table -/

/-- What the table says about the memory, entry by entry. -/
structure TableInvariant (original : Memory) (s : Bp) : Prop where
  /-- An armed entry has its breakpoint planted and its original byte backed up. -/
  armed : ∀ i : Nat, (i : Int) < s.bpCount → s.bpState i = .USING →
    s.text (s.bpAddr i) = INT3 ∧ s.bpBackup i = original (s.bpAddr i)
  /-- An entry that is not armed has its original byte in memory. -/
  unarmed : ∀ i : Nat, (i : Int) < s.bpCount → s.bpState i ≠ .USING →
    s.text (s.bpAddr i) = original (s.bpAddr i)
  /-- A byte at an unlisted address is unchanged. -/
  unlisted : ∀ a, ¬s.Listed a → s.text a = original a

/-- A table that represents a planted set meets the invariant. -/
theorem Bp.Overlays.tableInvariant {s : Bp} {original : Memory} (h : s.Overlays original) :
    TableInvariant original s where
  armed i below used := by
    have present : s.bpAddr i ∈ s.planted := ⟨i, ⟨below, used⟩, rfl⟩
    exact ⟨by rw [h.text, overlay_of_mem present], h.backup i ⟨below, used⟩⟩
  unarmed i below free := by rw [h.text, overlay_of_notMem (h.notMem_planted below free)]
  unlisted a absent := by
    have other : a ∉ s.planted := fun ⟨i, armed, same⟩ => absent ⟨i, armed.1, same⟩
    rw [h.text, overlay_of_notMem other]

/-- The list of addresses is fixed over a run of locked sections that starts with a
representation. -/
theorem run_lockedStep {s t : Bp} {original : Memory} {calls : List LockedCall}
    (h : s.Overlays original) (ran : run lockedStep s calls = some t) :
    t.Overlays original ∧ t.bpAddr = s.bpAddr ∧ t.bpCount = s.bpCount := by
  refine run_invariant (I := fun u => u.Overlays original ∧ u.bpAddr = s.bpAddr ∧
    u.bpCount = s.bpCount) ?_ ⟨h, rfl, rfl⟩ ran
  rintro u call v ⟨hu, addr, count⟩ stepped
  obtain ⟨sameAddr, sameCount⟩ := Bp.lockedStep_list stepped hu.count
  exact ⟨(hu.lockedStep stepped).1, sameAddr.trans addr, sameCount.trans count⟩

/-- In every reachable state of a session the table describes the memory exactly. So when
`int3_drddr` has claimed a trap at an address and later finds no armed entry there, the
memory holds the original byte at that moment. -/
theorem session_table_invariant (s₀ : Bp) (addrList : Nat → Word) (n : Nat)
    (distinct : ∀ i j, i < n → j < n → addrList i = addrList j → i = j)
    (before after : List LockedCall) (s t : Bp)
    (reached : run lockedStep (s₀.bpInit addrList n) before = some s)
    (later : run lockedStep s after = some t) :
    TableInvariant s₀.text t ∧
      ∀ (wp wp' : WpTable) (ip a : Word) (g g' : Shared),
        handlerStep ⟨s, wp⟩ (.trapped ip) .tick = some (g, .claimed a) →
        handlerStep ⟨t, wp'⟩ (.claimed a) .tick = some (g', .resumed a) →
        g'.bp.text a = s₀.text a := by
  obtain ⟨hs, -, -⟩ := run_lockedStep (Bp.overlays_bpInit s₀ addrList n distinct) reached
  obtain ⟨ht, sameAddr, sameCount⟩ := run_lockedStep hs later
  refine ⟨ht.tableInvariant, fun wp wp' ip a g g' claimed missed => ?_⟩
  have listed : t.Listed a := by
    simp only [handlerStep] at claimed
    split at claimed
    · rename_i check
      simp only [Option.some.injEq, Prod.mk.injEq, HandlerPc.claimed.injEq] at claimed
      obtain ⟨i, below, same⟩ := Bp.bpCheck_eq_true.mp check
      exact ⟨i, by rw [sameCount]; exact below, by rw [sameAddr, same, claimed.2]⟩
    · simp at claimed
  rcases t.bpRemove_cases a with ⟨i, -, result⟩ | ⟨absent, result⟩
  · simp [handlerStep, result] at missed
  · simp only [handlerStep, result, Option.some.injEq, Prod.mk.injEq, and_true] at missed
    obtain ⟨i, below, rfl⟩ := listed
    have free : t.bpState i ≠ .USING := fun used =>
      Bp.findArmed_eq_none.mp absent i ⟨below, used⟩ rfl
    rw [← missed]
    exact ht.tableInvariant.unarmed i below free

/-- Two neighbouring instructions. -/
def neighbours (i : Nat) : Word := BitVec.ofNat 64 (0x1000 + i)

/-- The neighbours are distinct. -/
theorem neighbours_distinct (i j : Nat) (hi : i < 2) (hj : j < 2)
    (same : neighbours i = neighbours j) : i = j := by
  have := congrArg BitVec.toNat same
  simp only [neighbours, BitVec.toNat_ofNat] at this
  omega

/-- A trap at the first neighbour is claimed while it is armed, and another handler restores
the byte before this one looks for it. -/
theorem session_table_invariant_at :
    noops 0x1000 = (((Bp.loaded noops).bpInit neighbours 2).arm 0 |>.disarm 0).text 0x1000 :=
  (session_table_invariant (Bp.loaded noops) neighbours 2 neighbours_distinct
    [.add 0 []] [.remove 0x1000] _ _ rfl rfl).2 .loaded .loaded 0x1001 0x1000 _ _ rfl rfl |>.symm

/-! ## The whole session -/

/-- Where the control thread is. -/
inductive ControlPc where
  /-- After `bp_init`; `start` may plant, and `bp_clean` may be called. -/
  | opened
  /-- In `bp_add(choice)`, with `bp_stopping` read as false. -/
  | adding (choice : Int)
  /-- In `bp_clean`, past its locked section. -/
  | polling
  /-- `bp_clean` has returned. -/
  | returned
  deriving DecidableEq

/-- The shared state, all handlers so far and the control thread. -/
structure Session where
  shared : Shared
  handlers : List HandlerPc
  control : ControlPc

/-- An atomic step of some thread. -/
inductive SessionEvent where
  /-- A processor executes a breakpoint instruction. -/
  | trap (ip : Word)
  /-- The handler at a position takes its next step. -/
  | handler (k : Nat) (input : HandlerInput)
  /-- The control thread calls `bp_add` and reads `bp_stopping`. -/
  | callAdd (choice : Int)
  /-- The locked section of that call. -/
  | add (draws : List (BitVec 32))
  /-- The locked section of `bp_clean`. -/
  | clean
  /-- `bp_clean` reads `bp_trap_count`. -/
  | poll

/-- Run one atomic step. -/
def sessionStep (s : Session) : SessionEvent → Option Session
  | .trap ip => some { s with handlers := s.handlers ++ [.trapped ip] }
  | .handler k input =>
    (poolStep handlerStep s.shared s.handlers k input).map fun (shared, handlers) =>
      { s with shared, handlers }
  | .callAdd choice =>
    if s.control = .opened then
      if s.shared.bp.bpStopping then some s else some { s with control := .adding choice }
    else none
  | .add draws =>
    match s.control with
    | .adding choice => (s.shared.bp.bpAddLocked choice draws).map fun (_, bp, _) =>
        { s with shared := { s.shared with bp }, control := .opened }
    | _ => none
  | .clean =>
    if s.control = .opened then
      some { s with
        shared := { s.shared with bp := s.shared.bp.bpCleanLocked }
        control := .polling }
    else none
  | .poll =>
    if s.control = .polling then
      if s.shared.bp.bpTrapCount = 0 then some { s with control := .returned } else some s
    else none

/-- The state in which `bp_init` returns, with no handler started. -/
def openSession (s₀ : Bp) (wp : WpTable) (addrList : Nat → Word) (n : Nat) : Session :=
  ⟨⟨s₀.bpInit addrList n, wp⟩, [], .opened⟩

/-- Nothing is left behind: no entry is armed, and every listed byte is the original one. -/
def NothingLeft (original : Memory) (addrList : Nat → Word) (n : Nat) (s : Session) : Prop :=
  (∀ i : Nat, (i : Int) < s.shared.bp.bpCount → s.shared.bp.bpState i ≠ .USING) ∧
    ∀ i < n, s.shared.bp.text (addrList i) = original (addrList i)

/-- The step is not a late re-arm: a handler that enters the locked section of `bp_add(-1)`
finds `bp_stopping` still false, or finds every entry in use. -/
def NotLate (s : Session) : SessionEvent → Prop
  | .handler k _ => s.handlers[k]? = some .rearmLock →
      s.shared.bp.bpStopping = false ∨ s.shared.bp.bpUsageCount = s.shared.bp.bpCount
  | _ => True

instance (s : Session) : (e : SessionEvent) → Decidable (NotLate s e)
  | .handler k _ => inferInstanceAs (Decidable (s.handlers[k]? = some .rearmLock →
      s.shared.bp.bpStopping = false ∨ s.shared.bp.bpUsageCount = s.shared.bp.bpCount))
  | .trap _ | .callAdd _ | .add _ | .clean | .poll => isTrue trivial

/-- `bp_clean` has passed its locked section. -/
def ControlPc.stopped : ControlPc → Bool
  | .opened | .adding _ => false
  | .polling | .returned => true

/-- What every step keeps while no re-arm is late, for the table alone. -/
structure TableKept (original : Memory) (addrList : Nat → Word) (n : Nat) (stopped : Bool)
    (bp : Bp) : Prop where
  /-- The table represents its planted set. -/
  overlays : bp.Overlays original
  /-- The list is the one the session opened with. -/
  addr : ∀ i < n, bp.bpAddr i = addrList i
  count : bp.bpCount = n
  /-- The flag tells whether `bp_clean` has passed its locked section. -/
  stopping : bp.bpStopping = stopped
  /-- From then on nothing is armed. -/
  empty : stopped = true → ∀ i, ¬bp.Armed i

variable {original : Memory} {addrList : Nat → Word} {n : Nat}

/-- A table kept through `bp_clean` leaves nothing behind. -/
theorem TableKept.nothingLeft {s : Session}
    (h : TableKept original addrList n true s.shared.bp) : NothingLeft original addrList n s := by
  refine ⟨fun i below used => h.empty rfl i ⟨below, used⟩, fun i hi => ?_⟩
  have below : (i : Int) < s.shared.bp.bpCount := by rw [h.count]; exact_mod_cast hi
  rw [← h.addr i hi]
  exact h.overlays.tableInvariant.unarmed i below fun used => h.empty rfl i ⟨below, used⟩

/-- The locked section of `bp_add` before the flag is set, or with no entry free. -/
theorem TableKept.bpAddLocked {stopped : Bool} {bp bp' : Bp} {choice : Int} {ok : Bool}
    {draws rest : List (BitVec 32)} (h : TableKept original addrList n stopped bp)
    (added : bp.bpAddLocked choice draws = some (ok, bp', rest))
    (inTime : stopped = false ∨ bp' = bp) : TableKept original addrList n stopped bp' := by
  rcases Bp.bpAddLocked_cases h.overlays.count added with ⟨-, rfl⟩ | ⟨-, i, below, free, rfl⟩
  · exact h
  · refine ⟨h.overlays.arm below free, h.addr, h.count, h.stopping, fun late => ?_⟩
    rcases inTime with early | same
    · simp [early] at late
    · rw [same]
      exact h.empty late

/-- With every entry in use the locked section of `bp_add(-1)` changes nothing. -/
theorem bpAddLocked_of_full {bp bp' : Bp} {ok : Bool} {draws rest : List (BitVec 32)}
    (full : bp.bpUsageCount = bp.bpCount)
    (added : bp.bpAddLocked (-1) draws = some (ok, bp', rest)) : bp' = bp := by
  simp only [Bp.bpAddLocked, ↓reduceIte, full, Option.some.injEq, Prod.mk.injEq] at added
  exact added.2.1.symm

/-- A handler step that is not a late re-arm keeps the table. -/
theorem TableKept.handler {stopped : Bool} {g g' : Shared} {pc pc' : HandlerPc}
    (h : TableKept original addrList n stopped g.bp) (effect : HandlerEffect g pc g' pc')
    (notLate : pc = .rearmLock →
      g.bp.bpStopping = false ∨ g.bp.bpUsageCount = g.bp.bpCount) :
    TableKept original addrList n stopped g'.bp := by
  cases effect with
  | quiet | missed => exact h
  | removed a i found =>
    have armed := (Bp.findArmed_eq_some.mp found).1
    exact ⟨h.overlays.disarm armed, h.addr, h.count, h.stopping,
      fun late k used => h.empty late k (Bp.armed_disarm.mp used).2⟩
  | counted | left =>
    have o := h.overlays
    exact ⟨⟨o.count, o.distinct, o.text, o.backup⟩, h.addr, h.count, h.stopping, h.empty⟩
  | readded ok bp draws rest added =>
    refine h.bpAddLocked added ?_
    rcases notLate rfl with early | full
    · exact .inl (h.stopping.symm.trans early)
    · exact .inr (bpAddLocked_of_full full added)

/-- Every step that is not a late re-arm keeps the table. -/
theorem tableKept_step (s : Session) (e : SessionEvent) (t : Session)
    (h : TableKept original addrList n s.control.stopped s.shared.bp) (notLate : NotLate s e)
    (stepped : sessionStep s e = some t) :
    TableKept original addrList n t.control.stopped t.shared.bp := by
  cases e with
  | trap ip =>
    obtain rfl := Option.some.inj stepped
    exact h
  | handler k input =>
    obtain ⟨⟨g, handlers⟩, moved, rfl⟩ := Option.map_eq_some_iff.mp stepped
    obtain ⟨-, pc, pc', -, found, -, -, acted⟩ := poolStep_cases moved
    exact h.handler (handlerStep_effect acted) fun late => notLate (late ▸ found)
  | callAdd choice =>
    simp only [sessionStep] at stepped
    split at stepped
    · rename_i isOpen
      split at stepped <;> obtain rfl := Option.some.inj stepped
      · exact h
      · simpa [isOpen, ControlPc.stopped] using h
    · contradiction
  | add draws =>
    simp only [sessionStep] at stepped
    split at stepped
    · rename_i choice adding
      obtain ⟨⟨ok, bp, rest⟩, added, rfl⟩ := Option.map_eq_some_iff.mp stepped
      rw [adding] at h
      exact h.bpAddLocked added (.inl rfl)
    · contradiction
  | clean =>
    simp only [sessionStep] at stepped
    split at stepped
    · obtain rfl := Option.some.inj stepped
      obtain ⟨kept, disarmed⟩ := Bp.bpCleanLocked_spec
        (P := fun u => u.Overlays original ∧ (∀ i < n, u.bpAddr i = addrList i) ∧ u.bpCount = n)
        (fun u i hu armed _ => ⟨hu.1.disarm armed, hu.2⟩)
        (fun u hu => ⟨⟨hu.1.count, hu.1.distinct, hu.1.text, hu.1.backup⟩, hu.2⟩)
        ⟨h.overlays, h.addr, h.count⟩
      exact ⟨kept.1, kept.2.1, kept.2.2, rfl, fun _ => disarmed⟩
    · contradiction
  | poll =>
    simp only [sessionStep] at stepped
    split at stepped
    · rename_i polling
      split at stepped <;> obtain rfl := Option.some.inj stepped
      · simpa [polling, ControlPc.stopped] using h
      · exact h
    · contradiction

/-- In every run of a session in which no re-arm is late, nothing is left behind in the
state in which `bp_clean` returns, nor in any later one. -/
theorem bpClean_leaves_nothing (s₀ : Bp) (wp : WpTable) (addrList : Nat → Word) (n : Nat)
    (distinct : ∀ i j, i < n → j < n → addrList i = addrList j → i = j)
    (events : List SessionEvent) (s : Session)
    (inTime : Admits sessionStep NotLate (openSession s₀ wp addrList n) events)
    (ran : run sessionStep (openSession s₀ wp addrList n) events = some s)
    (returned : s.control = .returned) : NothingLeft s₀.text addrList n s := by
  have start : TableKept s₀.text addrList n (openSession s₀ wp addrList n).control.stopped
      (openSession s₀ wp addrList n).shared.bp :=
    ⟨Bp.overlays_bpInit s₀ addrList n distinct, fun i hi => by simp [openSession, Bp.bpInit_eq, hi],
      by simp [openSession, Bp.bpInit_eq], by simp [openSession, Bp.bpInit_eq, ControlPc.stopped],
      fun late => Bool.noConfusion late⟩
  have kept := run_admitted (I := fun t : Session =>
    TableKept s₀.text addrList n t.control.stopped t.shared.bp) tableKept_step start inTime ran
  rw [returned] at kept
  exact kept.nothingLeft

/-- One breakpoint is armed and hit, and its handler reads `bp_stopping` before `bp_clean` sets it.
-/
def hitBeforeStop : List SessionEvent :=
  [.callAdd 0, .add [], .trap 0x1001, .handler 0 .tick, .handler 0 .tick, .handler 0 .tick,
    .handler 0 (.decoded none), .handler 0 .tick]

/-- The handler re-arms before the control thread stops. -/
def promptRearm : List SessionEvent :=
  hitBeforeStop ++ [.handler 0 (.drawn [0]), .clean, .handler 0 .tick, .poll]

/-- The handler re-arms after the control thread has cleaned, and leaves before its poll. -/
def lateRearm : List SessionEvent :=
  hitBeforeStop ++ [.clean, .handler 0 (.drawn [0]), .handler 0 .tick, .poll]

/-- A session over two no-ops. -/
def noopSession : Session := openSession (.loaded noops) .loaded neighbours 2

/-- In the prompt run nothing is left behind. -/
theorem bpClean_leaves_nothing_prompt :
    ∃ s, run sessionStep noopSession promptRearm = some s ∧ NothingLeft noops neighbours 2 s :=
  ⟨_, rfl, bpClean_leaves_nothing (.loaded noops) .loaded neighbours 2 neighbours_distinct
    promptRearm _ (by decide) rfl rfl⟩

/-- In the late run over distinct addresses `bp_clean` returns with an entry armed and its
`INT3` in memory. -/
theorem bpClean_leaves_late_rearm :
    (∀ i j, i < 2 → j < 2 → neighbours i = neighbours j → i = j) ∧
      ∃ s, run sessionStep noopSession lateRearm = some s ∧ s.control = .returned ∧
        s.shared.bp.bpState 0 = .USING ∧ s.shared.bp.text (neighbours 0) = INT3 ∧
        ¬NothingLeft noops neighbours 2 s :=
  ⟨neighbours_distinct, _, rfl, rfl, rfl, rfl, fun nothing => nothing.1 0 (by decide) rfl⟩

end Drddr
