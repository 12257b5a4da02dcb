import Drddr.Bp.Table
import Drddr.Wp.Table

/-!
# The breakpoint handler as a thread

`int3_drddr` and, for a diverted trap, `int3_real_work`, cut at every access to state
that other processors share. A section under one of the two locks is one step; so is each
read that the source makes outside them. The frame built on the interrupted stack and the
decoding of the displaced instruction touch no shared state and are modelled elsewhere:
here the decoded access is an input.
-/

namespace Drddr

open Machine

/-- The state that handlers and the control interface share. -/
structure Shared where
  bp : Bp
  wp : WpTable

/-- Where a handler is. -/
inductive HandlerPc where
  /-- Entered with `regs->ip` one past the breakpoint; `bp_check` is next. -/
  | trapped (ip : Word)
  /-- `bp_check` succeeded and `regs->ip` is rewound; `bp_remove` is next. -/
  | claimed (a : Word)
  /-- `bp_remove` succeeded; `bp_inc_trapped` is next. -/
  | removed (a : Word)
  /-- `bp_inc_trapped` succeeded; `int3_real_work` decodes the instruction next. -/
  | diverted (a : Word)
  /-- Inside `wp_add`. -/
  | watching (pc : WpAddPc)
  /-- `wp_add` returned a valid identifier; `wp_remove` is next. -/
  | watched (id : WatchpointId)
  /-- `bp_add(-1)` is next, before its read of `bp_stopping`. -/
  | rearm
  /-- `bp_stopping` was read as false; the locked section of `bp_add(-1)` is next. -/
  | rearmLock
  /-- `bp_dec_trapped` is next. -/
  | leaving
  /-- `old_do_int3` was called. -/
  | passed (ip : Word)
  /-- Returned with `regs->ip` rewound and nothing diverted. -/
  | resumed (a : Word)
  /-- `int3_real_work` returned. -/
  | finished
  deriving DecidableEq

/-- What a step takes from outside the shared state. -/
inductive HandlerInput where
  | tick
  /-- The access that `get_data_info` reports, if its length is positive. -/
  | decoded (access : Option WpRequest)
  /-- Results of `random32`. -/
  | drawn (draws : List (BitVec 32))

/-- One step of a handler. -/
def handlerStep (s : Shared) : HandlerPc → HandlerInput → Option (Shared × HandlerPc)
  | .trapped ip, .tick =>
    if s.bp.bpCheck (ip - 1) then some (s, .claimed (ip - 1)) else some (s, .passed ip)
  | .claimed a, .tick =>
    match s.bp.bpRemove a with
    | (true, bp) => some ({ s with bp }, .removed a)
    | (false, bp) => some ({ s with bp }, .resumed a)
  | .removed a, .tick =>
    match s.bp.bpIncTrapped with
    | (true, bp) => some ({ s with bp }, .diverted a)
    | (false, bp) => some ({ s with bp }, .resumed a)
  | .diverted _, .decoded (some req) => some (s, .watching (.test 0 req))
  | .diverted _, .decoded none => some (s, .rearm)
  | .watching (.done id), .tick =>
    if id.isValid then some (s, .watched id) else some (s, .rearm)
  | .watching pc, .tick =>
    (wpAddStep s.wp pc).map fun (wp, pc) => ({ s with wp }, .watching pc)
  | .watched id, .tick => some ({ s with wp := s.wp.wpRemove id }, .rearm)
  | .rearm, .tick => if s.bp.bpStopping then some (s, .leaving) else some (s, .rearmLock)
  | .rearmLock, .drawn draws =>
    (s.bp.bpAddLocked (-1) draws).map fun (_, bp, _) => ({ s with bp }, .leaving)
  | .leaving, .tick => some ({ s with bp := s.bp.bpDecTrapped }, .finished)
  | _, _ => none

/-- A handler is counted: between its successful `bp_inc_trapped` and its `bp_dec_trapped`. -/
def HandlerPc.inFlight : HandlerPc → Bool
  | .diverted _ | .watching _ | .watched _ | .rearm | .rearmLock | .leaving => true
  | _ => false

/-- A handler has removed a breakpoint and not yet asked to be counted. -/
def HandlerPc.isRemoved : HandlerPc → Bool
  | .removed _ => true
  | _ => false

/-- Everything a handler step can do. -/
inductive HandlerMove (s : Shared) : HandlerPc → Shared → HandlerPc → Prop where
  /-- `bp_check` finds the address. -/
  | claim (ip : Word) (found : s.bp.bpCheck (ip - 1) = true) :
      HandlerMove s (.trapped ip) s (.claimed (ip - 1))
  /-- `bp_check` does not. -/
  | pass (ip : Word) (absent : s.bp.bpCheck (ip - 1) = false) :
      HandlerMove s (.trapped ip) s (.passed ip)
  /-- `bp_remove` restored an armed entry. -/
  | remove (a : Word) (i : Nat) (found : s.bp.findArmed a = some i) :
      HandlerMove s (.claimed a) { s with bp := s.bp.disarm i } (.removed a)
  /-- `bp_remove` found nothing armed at the address. -/
  | miss (a : Word) (absent : s.bp.findArmed a = none) : HandlerMove s (.claimed a) s (.resumed a)
  /-- `bp_inc_trapped` counted the handler. -/
  | count (a : Word) (flag : s.bp.bpStopping = false) :
      HandlerMove s (.removed a)
        { s with bp := { s.bp with bpTrapCount := s.bp.bpTrapCount + 1 } } (.diverted a)
  /-- `bp_inc_trapped` refused. -/
  | refuse (a : Word) (flag : s.bp.bpStopping = true) : HandlerMove s (.removed a) s (.resumed a)
  /-- An access was decoded. -/
  | decode (a : Word) (req : WpRequest) : HandlerMove s (.diverted a) s (.watching (.test 0 req))
  /-- None was. -/
  | skip (a : Word) : HandlerMove s (.diverted a) s .rearm
  /-- `wp_add` returned. -/
  | watch (id : WatchpointId) : HandlerMove s (.watching (.done id)) s (.watched id)
  | full (id : WatchpointId) : HandlerMove s (.watching (.done id)) s .rearm
  /-- A step inside `wp_add`. -/
  | add (pc next : WpAddPc) (wp : WpTable) : HandlerMove s (.watching pc) { s with wp }
      (.watching next)
  /-- `wp_remove`. -/
  | unwatch (id : WatchpointId) :
      HandlerMove s (.watched id) { s with wp := s.wp.wpRemove id } .rearm
  /-- `bp_add(-1)` reads the flag. -/
  | shut (flag : s.bp.bpStopping = true) : HandlerMove s .rearm s .leaving
  | lock (flag : s.bp.bpStopping = false) : HandlerMove s .rearm s .rearmLock
  /-- The locked section of `bp_add(-1)`. -/
  | readd (ok : Bool) (bp : Bp) (draws rest : List (BitVec 32))
      (added : s.bp.bpAddLocked (-1) draws = some (ok, bp, rest)) :
      HandlerMove s .rearmLock { s with bp } .leaving
  /-- `bp_dec_trapped`. -/
  | leave : HandlerMove s .leaving { s with bp := s.bp.bpDecTrapped } .finished

/-- What a handler step does to the shared state. -/
inductive HandlerEffect (s : Shared) : HandlerPc → Shared → HandlerPc → Prop where
  /-- The breakpoints are untouched, and only a counted handler changes the watchpoints. -/
  | quiet {pc pc'} (wp : WpTable) (same : pc.inFlight = pc'.inFlight)
      (counted : pc.inFlight = false → wp = s.wp) (removed : pc'.isRemoved = false) :
      HandlerEffect s pc { s with wp } pc'
  /-- `bp_remove` restored an armed entry. -/
  | removed (a : Word) (i : Nat) (found : s.bp.findArmed a = some i) :
      HandlerEffect s (.claimed a) { s with bp := s.bp.disarm i } (.removed a)
  /-- `bp_remove` found nothing armed at the address. -/
  | missed (a : Word) (absent : s.bp.findArmed a = none) :
      HandlerEffect s (.claimed a) s (.resumed a)
  /-- `bp_inc_trapped` counted the handler. -/
  | counted (a : Word) (open' : s.bp.bpStopping = false) :
      HandlerEffect s (.removed a)
        { s with bp := { s.bp with bpTrapCount := s.bp.bpTrapCount + 1 } } (.diverted a)
  /-- The locked section of `bp_add(-1)`. -/
  | readded (ok : Bool) (bp : Bp) (draws rest : List (BitVec 32))
      (added : s.bp.bpAddLocked (-1) draws = some (ok, bp, rest)) :
      HandlerEffect s .rearmLock { s with bp } .leaving
  /-- `bp_dec_trapped`. -/
  | left : HandlerEffect s .leaving { s with bp := s.bp.bpDecTrapped } .finished

variable {s s' : Shared} {pc pc' : HandlerPc}

/-- Every handler step is one of the listed moves. -/
theorem handlerStep_move {input : HandlerInput}
    (stepped : handlerStep s pc input = some (s', pc')) : HandlerMove s pc s' pc' := by
  unfold handlerStep at stepped
  split at stepped
  · split at stepped
    · cases stepped
      exact .claim _ ‹_›
    · cases stepped
      exact .pass _ (Bool.eq_false_of_not_eq_true ‹_›)
  · rename_i a
    rcases s.bp.bpRemove_cases a with ⟨i, found, result⟩ | ⟨absent, result⟩
    · simp only [result] at stepped
      cases stepped
      exact .remove a i found
    · simp only [result] at stepped
      cases stepped
      exact .miss a absent
  · rename_i a
    rcases s.bp.bpIncTrapped_cases with ⟨flag, result⟩ | ⟨flag, result⟩
    · simp only [result] at stepped
      cases stepped
      exact .refuse a flag
    · simp only [result] at stepped
      cases stepped
      exact .count a flag
  · cases stepped
    exact .decode _ _
  · cases stepped
    exact .skip _
  · split at stepped
    · cases stepped
      exact .watch _
    · cases stepped
      exact .full _
  · obtain ⟨⟨wp, next⟩, -, same⟩ := Option.map_eq_some_iff.mp stepped
    cases same
    exact .add _ _ _
  · cases stepped
    exact .unwatch _
  · split at stepped
    · cases stepped
      exact .shut ‹_›
    · cases stepped
      exact .lock (Bool.eq_false_of_not_eq_true ‹_›)
  · obtain ⟨⟨ok, bp, rest⟩, added, same⟩ := Option.map_eq_some_iff.mp stepped
    cases same
    exact .readd ok bp _ rest added
  · cases stepped
    exact .leave
  · contradiction

/-- A step between two states that are both counted or both not, with no memory written. -/
theorem HandlerEffect.silent (same : pc.inFlight = pc'.inFlight)
    (removed : pc'.isRemoved = false) : HandlerEffect s pc s pc' :=
  .quiet s.wp same (fun _ => rfl) removed

/-- Every handler step has one of the listed effects. -/
theorem handlerStep_effect {input : HandlerInput}
    (stepped : handlerStep s pc input = some (s', pc')) : HandlerEffect s pc s' pc' := by
  cases handlerStep_move stepped with
  | claim | pass | refuse | decode | skip | watch | full | shut | lock => exact .silent rfl rfl
  | remove a i found => exact .removed a i found
  | miss a absent => exact .missed a absent
  | count a flag => exact .counted a flag
  | add | unwatch => exact .quiet _ rfl (fun out => Bool.noConfusion out) rfl
  | readd ok bp draws rest added => exact .readded ok bp draws rest added
  | leave => exact .left

end Drddr
