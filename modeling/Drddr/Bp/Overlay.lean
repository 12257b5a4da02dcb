import Drddr.Bp.Table
import Drddr.Machine.Overlay
import Drddr.Machine.Run

/-!
# What the breakpoint table is for

Abstractly the component keeps a set of addresses at which a breakpoint is planted; the
memory is the original one with `INT3` overlaid on that set. The table represents such a
set when its addresses are pairwise distinct and every backup is the original byte, and
each locked section of the source is then one step on the set: an insertion, a removal or
a clearing.
-/

namespace Drddr

open Machine

namespace Bp

/-- Addresses of the armed entries. -/
def planted (s : Bp) : Set Word := { a | ∃ i, s.Armed i ∧ s.bpAddr i = a }

/-- The listed addresses are pairwise distinct. -/
def DistinctAddresses (s : Bp) : Prop :=
  ∀ i j : Nat, (i : Int) < s.bpCount → (j : Int) < s.bpCount → s.bpAddr i = s.bpAddr j → i = j

/-- The table represents its planted set over an original memory. -/
structure Overlays (s : Bp) (original : Memory) : Prop where
  /-- A table that a session lists. -/
  count : 0 ≤ s.bpCount
  /-- No address is listed twice. -/
  distinct : s.DistinctAddresses
  /-- The memory shows `INT3` on the planted set and the original bytes elsewhere. -/
  text : s.text = overlay original INT3 s.planted
  /-- The backup of an armed entry is the original byte. -/
  backup : ∀ i, s.Armed i → s.bpBackup i = original (s.bpAddr i)

/-- One step on the planted set. -/
inductive PlantStep (listed : Word → Prop) (planted : Set Word) : Set Word → Prop where
  /-- Nothing to plant or to take back. -/
  | stay : PlantStep listed planted planted
  /-- A listed address is planted. -/
  | insert (a : Word) (isListed : listed a) : PlantStep listed planted (insert a planted)
  /-- A planted address is taken back. -/
  | erase (a : Word) (present : a ∈ planted) : PlantStep listed planted (planted \ {a})
  /-- Every planted address is taken back. -/
  | clear : PlantStep listed planted ∅

variable {s : Bp} {original : Memory}

/-- Arming an entry plants its address. -/
theorem planted_arm {i : Nat} (below : (i : Int) < s.bpCount) :
    (s.arm i).planted = insert (s.bpAddr i) s.planted := by
  ext a
  simp only [planted, Set.mem_ofPred_eq, Set.mem_insert_iff, armed_arm below, arm_bpAddr]
  constructor
  · rintro ⟨k, rfl | armed, rfl⟩
    · exact .inl rfl
    · exact .inr ⟨k, armed, rfl⟩
  · rintro (rfl | ⟨k, armed, rfl⟩)
    · exact ⟨i, .inl rfl, rfl⟩
    · exact ⟨k, .inr armed, rfl⟩

/-- Disarming an entry of distinct addresses takes its address back. -/
theorem planted_disarm (distinct : s.DistinctAddresses) {i : Nat} (armed : s.Armed i) :
    (s.disarm i).planted = s.planted \ {s.bpAddr i} := by
  ext a
  simp only [planted, Set.mem_ofPred_eq, Set.mem_sdiff, Set.mem_singleton_iff, armed_disarm,
    disarm_bpAddr]
  constructor
  · rintro ⟨k, ⟨other, used⟩, rfl⟩
    exact ⟨⟨k, used, rfl⟩, fun same => other (distinct k i used.1 armed.1 same)⟩
  · rintro ⟨⟨k, used, rfl⟩, other⟩
    exact ⟨k, ⟨fun same => other (by rw [same]), used⟩, rfl⟩

/-- A listed entry that is not armed has an address that is not planted. -/
theorem Overlays.notMem_planted (h : s.Overlays original) {i : Nat}
    (below : (i : Int) < s.bpCount) (free : s.bpState i ≠ .USING) :
    s.bpAddr i ∉ s.planted := by
  rintro ⟨k, used, same⟩
  obtain rfl := h.distinct k i used.1 below same
  exact free used.2

/-- Arming a free entry keeps the representation. -/
theorem Overlays.arm (h : s.Overlays original) {i : Nat} (below : (i : Int) < s.bpCount)
    (free : s.bpState i ≠ .USING) : (s.arm i).Overlays original where
  count := h.count
  distinct := h.distinct
  text := by
    rw [planted_arm below, ← update_overlay_insert, ← h.text]
    rfl
  backup k armed := by
    rcases (armed_arm below).mp armed with rfl | used
    · change Function.update s.bpBackup k (s.text (s.bpAddr k)) k = _
      rw [Function.update_self, h.text, overlay_of_notMem (h.notMem_planted below free)]
      rfl
    · have other : k ≠ i := fun same => free (same ▸ used.2)
      change Function.update s.bpBackup i _ k = _
      rw [Function.update_of_ne other]
      exact h.backup k used

/-- Disarming an armed entry keeps the representation. -/
theorem Overlays.disarm (h : s.Overlays original) {i : Nat} (armed : s.Armed i) :
    (s.disarm i).Overlays original where
  count := h.count
  distinct := h.distinct
  text := by
    rw [planted_disarm h.distinct armed, ← update_overlay_erase, ← h.text, ← h.backup i armed]
    rfl
  backup k used := h.backup k (armed_disarm.mp used).2

/-- `bp_remove` keeps the representation. -/
theorem Overlays.bpRemove (h : s.Overlays original) (a : Word) :
    (s.bpRemove a).2.Overlays original := by
  rcases s.bpRemove_cases a with ⟨i, found, result⟩ | ⟨-, result⟩
  · rw [result]
    exact h.disarm (findArmed_eq_some.mp found).1
  · rw [result]
    exact h

/-- The locked section of `bp_add` keeps the representation. -/
theorem Overlays.bpAddLocked (h : s.Overlays original) {choice : Int}
    {draws rest : List (BitVec 32)} {ok : Bool} {t : Bp}
    (added : s.bpAddLocked choice draws = some (ok, t, rest)) : t.Overlays original := by
  rcases bpAddLocked_cases h.count added with ⟨-, rfl⟩ | ⟨-, i, below, free, rfl⟩
  · exact h
  · exact h.arm below free

/-- The locked section of `bp_clean` keeps the representation and empties the planted set. -/
theorem Overlays.bpCleanLocked (h : s.Overlays original) :
    s.bpCleanLocked.Overlays original ∧ s.bpCleanLocked.planted = ∅ := by
  obtain ⟨kept, disarmed⟩ := bpCleanLocked_spec (P := fun t => t.Overlays original)
    (fun t i ht armed _ => ht.disarm armed)
    (fun t ht => ⟨ht.count, ht.distinct, ht.text, ht.backup⟩) h
  refine ⟨kept, Set.eq_empty_of_forall_notMem ?_⟩
  rintro a ⟨i, armed, -⟩
  exact disarmed i armed

/-- A session starts with the memory as its own original and nothing planted. -/
theorem overlays_bpInit (s : Bp) (addrList : Nat → Word) (n : Nat)
    (distinct : ∀ i j, i < n → j < n → addrList i = addrList j → i = j) :
    (s.bpInit addrList n).Overlays s.text where
  count := by simp [bpInit_eq]
  distinct i j hi hj same := by
    simp only [bpInit_eq, Int.ofNat_lt] at hi hj same
    rw [if_pos hi, if_pos hj] at same
    exact distinct i j hi hj same
  text := by
    have empty : (s.bpInit addrList n).planted = ∅ := by
      apply Set.eq_empty_of_forall_notMem
      rintro a ⟨i, armed, -⟩
      exact not_armed_bpInit s addrList n i armed
    rw [empty, overlay_empty, bpInit_eq]
  backup i armed := absurd armed (not_armed_bpInit s addrList n i)

end Bp

/-- A section that the source runs under `bp_lock`. -/
inductive LockedCall where
  | add (choice : Int) (draws : List (BitVec 32))
  | remove (address : Word)
  | clean
  | inc
  | dec

/-- One locked section, run by any thread. -/
def lockedStep (s : Bp) : LockedCall → Option Bp
  | .add choice draws => (s.bpAddLocked choice draws).map fun (_, t, _) => t
  | .remove address => some (s.bpRemove address).2
  | .clean => some s.bpCleanLocked
  | .inc => some s.bpIncTrapped.2
  | .dec => some s.bpDecTrapped

namespace Bp

variable {s t : Bp} {original : Memory}

/-- Every locked section keeps the representation and is one step on the planted set. -/
theorem Overlays.lockedStep (h : s.Overlays original) {call : LockedCall}
    (stepped : lockedStep s call = some t) :
    t.Overlays original ∧ PlantStep s.Listed s.planted t.planted := by
  cases call with
  | add choice draws =>
    obtain ⟨⟨ok, u, rest⟩, added, rfl⟩ := Option.map_eq_some_iff.mp stepped
    refine ⟨h.bpAddLocked added, ?_⟩
    rcases bpAddLocked_cases h.count added with ⟨-, rfl⟩ | ⟨-, i, below, -, rfl⟩
    · exact .stay
    · rw [planted_arm below]
      exact .insert _ ⟨i, below, rfl⟩
  | remove address =>
    obtain rfl := Option.some.inj stepped
    refine ⟨h.bpRemove address, ?_⟩
    rcases s.bpRemove_cases address with ⟨i, found, result⟩ | ⟨-, result⟩
    · have armed := (findArmed_eq_some.mp found).1
      rw [result, planted_disarm h.distinct armed]
      exact .erase _ ⟨i, armed, rfl⟩
    · rw [result]
      exact .stay
  | clean =>
    obtain rfl := Option.some.inj stepped
    refine ⟨h.bpCleanLocked.1, ?_⟩
    rw [h.bpCleanLocked.2]
    exact .clear
  | inc =>
    obtain rfl := Option.some.inj stepped
    rcases s.bpIncTrapped_cases with ⟨-, result⟩ | ⟨-, result⟩ <;> rw [result]
    · exact ⟨h, .stay⟩
    · exact ⟨⟨h.count, h.distinct, h.text, h.backup⟩, .stay⟩
  | dec =>
    obtain rfl := Option.some.inj stepped
    exact ⟨⟨h.count, h.distinct, h.text, h.backup⟩, .stay⟩

/-- The locked sections leave the list of addresses alone. -/
theorem lockedStep_list {call : LockedCall} (stepped : lockedStep s call = some t)
    (count : 0 ≤ s.bpCount) : t.bpAddr = s.bpAddr ∧ t.bpCount = s.bpCount := by
  cases call with
  | add choice draws =>
    obtain ⟨⟨ok, u, rest⟩, added, rfl⟩ := Option.map_eq_some_iff.mp stepped
    rcases bpAddLocked_cases count added with ⟨-, rfl⟩ | ⟨-, i, -, -, rfl⟩
    · exact ⟨rfl, rfl⟩
    · exact ⟨rfl, rfl⟩
  | remove address =>
    obtain rfl := Option.some.inj stepped
    rcases s.bpRemove_cases address with ⟨i, -, result⟩ | ⟨-, result⟩ <;> rw [result]
    · exact ⟨rfl, rfl⟩
    · exact ⟨rfl, rfl⟩
  | clean =>
    obtain rfl := Option.some.inj stepped
    exact (bpCleanLocked_spec (P := fun t => t.bpAddr = s.bpAddr ∧ t.bpCount = s.bpCount)
      (fun _ _ same _ _ => same) (fun _ same => same) ⟨rfl, rfl⟩).1
  | inc =>
    obtain rfl := Option.some.inj stepped
    rcases s.bpIncTrapped_cases with ⟨-, result⟩ | ⟨-, result⟩ <;> rw [result]
    · exact ⟨rfl, rfl⟩
    · exact ⟨rfl, rfl⟩
  | dec =>
    obtain rfl := Option.some.inj stepped
    exact ⟨rfl, rfl⟩

end Bp

end Drddr
