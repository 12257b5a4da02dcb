import Drddr.Machine.Run
import Drddr.Wp.Table

/-!
# Attribution of debug traps

One processor's debug status register over a whole run. A hit of a slot sets the slot's
status bit; the processor never clears those bits, and neither does the handler. `wp_query`
takes the lowest bit set, so an old hit of a lower slot hides a new hit of a higher one.
-/

namespace Drddr

open Machine

/-- `debug_drddr`: the table it leaves, and what it reports of a watchpoint. -/
def debugDrddr (t : WpTable) (dr6 : Word) : WpTable × Option WpReport :=
  let wpId := wpQuery dr6
  if wpId.isValid then (t.wpRemove wpId, some (wpReport t wpId)) else (t, none)

/-- The table, and the debug state of one processor. -/
structure DebugCpu where
  wp : WpTable
  dr6 : Word
  /-- The slot that fired, until `debug_drddr` has run. -/
  pending : Option (Fin 4)

/-- What happens to the table or on the processor. -/
inductive DebugEvent where
  | add (req : WpRequest)
  | remove (id : WatchpointId)
  /-- The processor makes an access that a slot in use watches. -/
  | hit (i : Fin 4)
  | debug
  deriving DecidableEq

/-- One step of a processor; a hit waits until the one before it is handled. -/
def debugStep (s : DebugCpu) : DebugEvent → Option DebugCpu
  | .add req => some { s with wp := (wpAdd s.wp req).1 }
  | .remove id => some { s with wp := s.wp.wpRemove id }
  | .hit i =>
    if s.wp.wpUsage i = true ∧ s.pending = none then
      some { s with dr6 := s.dr6 ||| BitVec.twoPow 64 i.val, pending := some i }
    else none
  | .debug =>
    if s.pending.isSome then some { s with wp := (debugDrddr s.wp s.dr6).1, pending := none }
    else none

/-- The processor before the first event. -/
def openDebug (t : WpTable) (dr6 : Word) : DebugCpu := ⟨t, dr6, none⟩

/-- The handler, run in this state, takes the trap for a hit of the slot. -/
structure Attributed (s : DebugCpu) (i : Fin 4) : Prop where
  /-- `wp_query` returns the slot. -/
  query : (wpQuery s.dr6).isValid = true ∧ (wpQuery s.dr6).dr = i
  /-- `wp_report` prints the slot. -/
  report : (debugDrddr s.wp s.dr6).2 = some (wpReport s.wp ⟨i, 0⟩)
  /-- `wp_remove` frees the slot. -/
  freed : (debugDrddr s.wp s.dr6).1 = s.wp.release i

/-! ## Reading the status register -/

/-- The handler's test of a status bit looks at that bit. -/
theorem statusBit_iff (dr6 : Word) (i : Fin 4) :
    dr6 &&& (1 : Word) <<< i.val ≠ 0 ↔ dr6.getLsbD i = true := by
  have power : (1 : Word) <<< i.val = BitVec.twoPow 64 i := (BitVec.twoPow_eq 64 i).symm
  have nonzero : BitVec.twoPow 64 i ≠ 0 := by
    revert i
    decide
  rw [power, BitVec.and_twoPow]
  cases dr6.getLsbD i with
  | true => simpa using nonzero
  | false => simp

/-- The slot that `wp_query` returns is the lowest one whose bit is set. -/
theorem wpQuery_iff (dr6 : Word) (i : Fin 4) :
    (wpQuery dr6).isValid = true ∧ (wpQuery dr6).dr = i ↔
      dr6.getLsbD i = true ∧ ∀ j < i, dr6.getLsbD j = false := by
  have lowest := find_slot_eq_some (fun k => dr6.getLsbD k) i
  have scan : (List.finRange 4).find? (fun k : Fin 4 => decide (dr6 &&& (1 : Word) <<< k.val ≠ 0)) =
      (List.finRange 4).find? fun k : Fin 4 => dr6.getLsbD k := by
    congr 1
    funext k
    rw [Bool.eq_iff_iff, decide_eq_true_iff]
    exact statusBit_iff dr6 k
  unfold wpQuery
  rw [scan, ← lowest]
  cases (List.finRange 4).find? fun k : Fin 4 => dr6.getLsbD k with
  | some slot => simp [WatchpointId.isValid]
  | none => simp [WatchpointId.isValid, WatchpointId.invalid]

/-- The handler takes the trap for the lowest slot whose bit is set, and for no other. -/
theorem attributed_iff (s : DebugCpu) (i : Fin 4) :
    Attributed s i ↔ s.dr6.getLsbD i = true ∧ ∀ j < i, s.dr6.getLsbD j = false := by
  constructor
  · intro attributed
    exact (wpQuery_iff s.dr6 i).mp attributed.query
  · intro lowest
    have query := (wpQuery_iff s.dr6 i).mpr lowest
    have any : wpQuery s.dr6 = ⟨i, 0⟩ := by
      unfold wpQuery at query ⊢
      split
      · rename_i slot found
        simp only [found] at query
        rw [query.2]
      · rename_i found
        simp only [found] at query
        exact absurd query.1 (by decide)
    have handled : debugDrddr s.wp s.dr6 = (s.wp.release i, some (wpReport s.wp ⟨i, 0⟩)) := by
      have valid : (⟨i, 0⟩ : WatchpointId).isValid = true := rfl
      simp only [debugDrddr, any, valid, WpTable.wpRemove, true_or, if_true]
    exact ⟨query, by rw [handled], by rw [handled]⟩

/-! ## The status register over a run -/

/-- The status bits are those set at the start and those of the slots that ever fired. -/
structure Sticky (dr6 : Word) (past : List DebugEvent) (s : DebugCpu) : Prop where
  bits : ∀ j : Fin 4, s.dr6.getLsbD j = true ↔ dr6.getLsbD j = true ∨ .hit j ∈ past
  pending : ∀ i, s.pending = some i → .hit i ∈ past

/-- Every step keeps the status bits those of the past. -/
theorem Sticky.step {dr6 : Word} {past : List DebugEvent} {s t : DebugCpu} {event : DebugEvent}
    (sticky : Sticky dr6 past s) (stepped : debugStep s event = some t) :
    Sticky dr6 (past ++ [event]) t := by
  have quiet (plain : ∀ j, event ≠ .hit j) (j : Fin 4) :
      DebugEvent.hit j ∈ past ++ [event] ↔ .hit j ∈ past := by
    simp [(plain j).symm]
  cases event with
  | add req =>
    cases Option.some.inj stepped
    have same := quiet (by simp)
    exact ⟨fun j => by rw [same]; exact sticky.bits j,
      fun i fired => (same i).mpr (sticky.pending i fired)⟩
  | remove id =>
    cases Option.some.inj stepped
    have same := quiet (by simp)
    exact ⟨fun j => by rw [same]; exact sticky.bits j,
      fun i fired => (same i).mpr (sticky.pending i fired)⟩
  | hit slot =>
    simp only [debugStep] at stepped
    split at stepped
    · cases Option.some.inj stepped
      constructor
      · intro j
        have bits := sticky.bits j
        have inside : slot.val < 64 := by omega
        have own : decide (slot.val = j.val) = true ↔ j = slot := by
          simp [Fin.ext_iff, eq_comm]
        simp only [BitVec.getLsbD_or, BitVec.getLsbD_twoPow, inside, decide_true, Bool.true_and,
          Bool.or_eq_true, own, bits, List.mem_append, List.mem_singleton, DebugEvent.hit.injEq,
          or_assoc]
      · intro i fired
        cases Option.some.inj fired
        simp
    · contradiction
  | debug =>
    simp only [debugStep] at stepped
    split at stepped
    · cases Option.some.inj stepped
      have same := quiet (by simp)
      exact ⟨fun j => by rw [same]; exact sticky.bits j, fun i fired => by contradiction⟩
    · contradiction

/-- In every run, a trap is attributed to the slot that fired exactly when no lower status
bit was set at the start and no lower slot has fired before. -/
theorem debug_attributed_iff {t : WpTable} {dr6 : Word} {events : List DebugEvent} {s : DebugCpu}
    {i : Fin 4} (ran : run debugStep (openDebug t dr6) events = some s)
    (fired : s.pending = some i) :
    Attributed s i ↔ ∀ j < i, dr6.getLsbD j = false ∧ DebugEvent.hit j ∉ events := by
  have opened : Sticky dr6 [] (openDebug t dr6) := ⟨by simp [openDebug], by simp [openDebug]⟩
  have sticky : Sticky dr6 events s := by
    simpa using run_history (fun _ _ _ _ => Sticky.step) opened ran
  have own : s.dr6.getLsbD i = true := (sticky.bits i).mpr (.inr (sticky.pending i fired))
  have lower (j : Fin 4) :
      s.dr6.getLsbD j = false ↔ dr6.getLsbD j = false ∧ DebugEvent.hit j ∉ events := by
    rw [← Bool.not_eq_true, sticky.bits j, not_or, Bool.not_eq_true]
  rw [attributed_iff]
  constructor
  · rintro ⟨-, clear⟩ j below
    exact (lower j).mp (clear j below)
  · intro clear
    exact ⟨own, fun j below => (lower j).mpr (clear j below)⟩

/-- The status register after a reset. -/
def dr6Reset : Word := 0xFFFF0FF0

/-- A request for a write of a byte. -/
def writeRequest (addr : Word) : WpRequest where
  dataAddr := addr
  dataLength := 8
  isWrite := true
  regs := default
  cpuid := 0
  trace := []

/-- The second of two slots fires first, then the first. -/
def descending : List DebugEvent :=
  [.add (writeRequest 0x1000), .add (writeRequest 0x2000), .hit 1, .debug, .hit 0]

/-- The first slot fires and is used again, then the second slot fires. -/
def ascending : List DebugEvent :=
  [.add (writeRequest 0x1000), .hit 0, .debug, .add (writeRequest 0x2000),
    .add (writeRequest 0x3000), .hit 1]

/-- A hit of the lowest slot is attributed to it whatever fired before. -/
theorem debug_attributed_descending :
    ∃ s, run debugStep (openDebug WpTable.loaded dr6Reset) descending = some s ∧
      s.pending = some 0 ∧ Attributed s 0 := by
  refine ⟨_, rfl, rfl, ?_⟩
  have attributed := @debug_attributed_iff WpTable.loaded dr6Reset descending _ 0 rfl rfl
  exact attributed.mpr (by decide)

/-- After the first slot has fired once, a hit of the second one is attributed to the first
and frees the watchpoint that has taken its place. -/
theorem debug_misattributed :
    ∃ s, run debugStep (openDebug WpTable.loaded dr6Reset) ascending = some s ∧
      s.pending = some 1 ∧ (wpQuery s.dr6).dr = 0 ∧ s.wp.wpUsage 0 = true ∧
      (debugDrddr s.wp s.dr6).1.wpUsage 0 = false ∧ (debugDrddr s.wp s.dr6).1.wpUsage 1 = true ∧
      ¬Attributed s 1 := by
  refine ⟨_, rfl, rfl, by decide, by decide, by decide, by decide, ?_⟩
  intro attributed
  exact absurd attributed.query.2 (by decide)

end Drddr
