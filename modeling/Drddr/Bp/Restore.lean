import Drddr.Bp.Table
import Drddr.Machine.Run

/-!
# Repeated addresses

Neither `bp_init` nor its callers reject a list in which an address occurs twice, so several
entries may back up and restore one byte. Followed for one address, the original byte is
always in at most one place: in memory or in the backup of one armed entry, everything else
holding `INT3`. A restore that finds the original byte in memory overwrites its last copy.
-/

namespace Drddr

open Machine

namespace Bp

variable {s : Bp} {original : Memory} {a : Word}

/-- The byte of the address is in memory, and no armed backup holds it. -/
def InMemory (s : Bp) (original : Memory) (a : Word) : Prop :=
  s.text a = original a ∧ ∀ i, s.Armed i → s.bpAddr i = a → s.bpBackup i = INT3

/-- The byte of the address is in the backup of exactly one armed entry. -/
def InBackup (s : Bp) (original : Memory) (a : Word) : Prop :=
  s.text a = INT3 ∧ ∃ i, s.Armed i ∧ s.bpAddr i = a ∧ s.bpBackup i = original a ∧
    ∀ k, s.Armed k → s.bpAddr k = a → k ≠ i → s.bpBackup k = INT3

/-- The byte of the address still exists. -/
def Kept (s : Bp) (original : Memory) (a : Word) : Prop :=
  s.InMemory original a ∨ s.InBackup original a

/-- The byte of the address, not itself `INT3`, is gone. -/
def Lost (s : Bp) (original : Memory) (a : Word) : Prop :=
  original a ≠ INT3 ∧ s.text a = INT3 ∧ ∀ i, s.Armed i → s.bpAddr i = a → s.bpBackup i = INT3

/-- The entries at another address are untouched by arming. -/
theorem arm_elsewhere {i k : Nat} (below : (i : Int) < s.bpCount)
    (other : s.bpAddr k ≠ s.bpAddr i) :
    ((s.arm i).Armed k ↔ s.Armed k) ∧ (s.arm i).bpBackup k = s.bpBackup k := by
  have ne : k ≠ i := fun same => other (by rw [same])
  exact ⟨by rw [armed_arm below]; simp [ne], Function.update_of_ne ne ..⟩

/-- The byte at another address is untouched by arming. -/
theorem arm_text_elsewhere {i : Nat} (other : a ≠ s.bpAddr i) : (s.arm i).text a = s.text a :=
  Memory.set_of_ne _ _ other

/-- The byte at another address is untouched by disarming. -/
theorem disarm_text_elsewhere {i : Nat} (other : a ≠ s.bpAddr i) :
    (s.disarm i).text a = s.text a :=
  Memory.set_of_ne _ _ other

/-- Arming plants `INT3` at its own address. -/
@[simp] theorem arm_text_self (i : Nat) : (s.arm i).text (s.bpAddr i) = INT3 :=
  Memory.set_self ..

/-- Disarming puts the backup at its own address. -/
@[simp] theorem disarm_text_self (i : Nat) :
    (s.disarm i).text (s.bpAddr i) = s.bpBackup i :=
  Memory.set_self ..

/-- Arming an entry backs up the byte of memory. -/
@[simp] theorem arm_bpBackup_self (i : Nat) : (s.arm i).bpBackup i = s.text (s.bpAddr i) :=
  Function.update_self ..

/-- Every other backup is untouched by arming. -/
theorem arm_bpBackup_of_ne {i k : Nat} (other : k ≠ i) : (s.arm i).bpBackup k = s.bpBackup k :=
  Function.update_of_ne other ..

/-- Arming a free entry keeps the byte of every address. -/
theorem Kept.arm (h : s.Kept original a) {i : Nat} (below : (i : Int) < s.bpCount)
    (free : s.bpState i ≠ .USING) : (s.arm i).Kept original a := by
  by_cases here : a = s.bpAddr i
  · subst here
    refine .inr ⟨arm_text_self i, ?_⟩
    rcases h with ⟨inMemory, others⟩ | ⟨planted, j, armed, same, holds, others⟩
    · -- The byte moves from memory into the new backup.
      refine ⟨i, (armed_arm below).mpr (.inl rfl), rfl, by simpa using inMemory, ?_⟩
      intro k used at_ ne
      rw [arm_bpBackup_of_ne ne]
      exact others k (((armed_arm below).mp used).resolve_left ne) at_
    · -- The new backup is one more copy of `INT3`.
      have ne : j ≠ i := fun eq => free (eq ▸ armed.2)
      refine ⟨j, (armed_arm below).mpr (.inr armed), same, by rwa [arm_bpBackup_of_ne ne], ?_⟩
      intro k used at_ other
      by_cases new : k = i
      · subst new
        simpa using planted
      · rw [arm_bpBackup_of_ne new]
        exact others k (((armed_arm below).mp used).resolve_left new) at_ other
  · have move (k : Nat) (used : (s.arm i).Armed k) (at_ : s.bpAddr k = a) :
        s.Armed k ∧ (s.arm i).bpBackup k = s.bpBackup k :=
      have away := arm_elsewhere below (k := k) fun same => here (at_.symm.trans same)
      ⟨away.1.mp used, away.2⟩
    rcases h with ⟨inMemory, others⟩ | ⟨planted, j, armed, same, holds, others⟩
    · refine .inl ⟨by rwa [arm_text_elsewhere here], fun k used at_ => ?_⟩
      rw [(move k used at_).2]
      exact others k (move k used at_).1 at_
    · have away := arm_elsewhere below (k := j) fun eq => here (same.symm.trans eq)
      refine .inr ⟨by rwa [arm_text_elsewhere here], j, away.1.mpr armed, same, by rwa [away.2], ?_⟩
      intro k used at_ other
      rw [(move k used at_).2]
      exact others k (move k used at_).1 at_ other

/-- Disarming an entry whose address still shows `INT3` keeps the byte of every address. -/
theorem Kept.disarm (h : s.Kept original a) {i : Nat} (armed : s.Armed i)
    (planted : s.text (s.bpAddr i) = INT3) : (s.disarm i).Kept original a := by
  by_cases here : a = s.bpAddr i
  · subst here
    rcases h with ⟨inMemory, others⟩ | ⟨-, j, used, same, holds, others⟩
    · -- The original byte is itself `INT3`, and so is every copy.
      refine .inl ⟨?_, fun k at_ => others k (armed_disarm.mp at_).2⟩
      rw [disarm_text_self, others i armed rfl, ← inMemory, planted]
    · by_cases holder : j = i
      · subst holder
        refine .inl ⟨by rwa [disarm_text_self], fun k at_ eq => ?_⟩
        exact others k (armed_disarm.mp at_).2 eq (armed_disarm.mp at_).1
      · refine .inr ⟨?_, j, armed_disarm.mpr ⟨holder, used⟩, same, holds, fun k at_ eq ne => ?_⟩
        · rw [disarm_text_self]
          exact others i armed rfl (Ne.symm holder)
        · exact others k (armed_disarm.mp at_).2 eq ne
  · rcases h with ⟨inMemory, others⟩ | ⟨shown, j, used, same, holds, others⟩
    · exact .inl ⟨by rwa [disarm_text_elsewhere here],
        fun k used => others k (armed_disarm.mp used).2⟩
    · have ne : j ≠ i := fun eq => here (by rw [← same, eq])
      exact .inr ⟨by rwa [disarm_text_elsewhere here], j, armed_disarm.mpr ⟨ne, used⟩, same, holds,
        fun k at_ => others k (armed_disarm.mp at_).2⟩

/-- Disarming an entry whose address no longer shows `INT3` loses the byte there. -/
theorem Kept.lost_disarm {i : Nat} (h : s.Kept original (s.bpAddr i)) (armed : s.Armed i)
    (shown : s.text (s.bpAddr i) ≠ INT3) : (s.disarm i).Lost original (s.bpAddr i) := by
  rcases h with ⟨inMemory, others⟩ | ⟨planted, -⟩
  · refine ⟨fun eq => shown (inMemory.trans eq), ?_,
      fun k used => others k (armed_disarm.mp used).2⟩
    rw [disarm_text_self]
    exact others i armed rfl
  · exact absurd planted shown

/-- A lost byte stays lost when an entry is armed. -/
theorem Lost.arm (h : s.Lost original a) {i : Nat} (below : (i : Int) < s.bpCount) :
    (s.arm i).Lost original a := by
  obtain ⟨ordinary, shown, others⟩ := h
  refine ⟨ordinary, ?_, fun k used at_ => ?_⟩
  · by_cases here : a = s.bpAddr i
    · rw [here, arm_text_self]
    · rwa [arm_text_elsewhere here]
  · by_cases new : k = i
    · subst new
      rw [arm_bpBackup_self]
      exact at_ ▸ shown
    · rw [arm_bpBackup_of_ne new]
      exact others k (((armed_arm below).mp used).resolve_left new) at_

/-- A lost byte stays lost when an entry is disarmed. -/
theorem Lost.disarm (h : s.Lost original a) {i : Nat} (armed : s.Armed i) :
    (s.disarm i).Lost original a := by
  obtain ⟨ordinary, shown, others⟩ := h
  refine ⟨ordinary, ?_, fun k used => others k (armed_disarm.mp used).2⟩
  by_cases here : a = s.bpAddr i
  · rw [here, disarm_text_self]
    exact others i armed here.symm
  · rwa [disarm_text_elsewhere here]

end Bp

/-- A whole call between `bp_init` and `bp_clean`. -/
inductive BpCall where
  | add (choice : Int) (draws : List (BitVec 32))
  | remove (address : Word)

/-- Run one whole call. -/
def callStep (s : Bp) : BpCall → Option Bp
  | .add choice draws => (s.bpAdd choice draws).map fun (_, t, _) => t
  | .remove address => some (s.bpRemove address).2

/-- A call restores no byte over another: an entry that `bp_remove` finds armed still shows
its `INT3`. -/
def SafeCall (s : Bp) : BpCall → Prop
  | .add _ _ => True
  | .remove address => (s.findArmed address).isSome → s.text address = INT3

instance (s : Bp) : (call : BpCall) → Decidable (SafeCall s call)
  | .add _ _ => isTrue trivial
  | .remove address =>
    inferInstanceAs (Decidable ((s.findArmed address).isSome → s.text address = INT3))

/-- `bp_clean` restores no byte over another: every armed entry still shows its `INT3`, and of
the armed entries at one address all but the last hold `INT3` as their backup. -/
def CleanSafe (s : Bp) : Prop :=
  ∀ i, s.Armed i → s.text (s.bpAddr i) = INT3 ∧
    ∀ k, i < k → s.Armed k → s.bpAddr k = s.bpAddr i → s.bpBackup i = INT3

namespace Bp

variable {s t : Bp} {original : Memory} {a : Word}

/-- A whole call arms a free entry, disarms an armed one or changes nothing. -/
theorem callStep_cases {call : BpCall} (count : 0 ≤ s.bpCount)
    (stepped : callStep s call = some t) :
    (t = s ∧ SafeCall s call) ∨
      (∃ i : Nat, (i : Int) < s.bpCount ∧ s.bpState i ≠ .USING ∧ t = s.arm i ∧ SafeCall s call) ∨
      ∃ i, s.Armed i ∧ t = s.disarm i ∧ (SafeCall s call ↔ s.text (s.bpAddr i) = INT3) := by
  cases call with
  | add choice draws =>
    obtain ⟨⟨ok, u, rest⟩, added, rfl⟩ := Option.map_eq_some_iff.mp stepped
    simp only [bpAdd] at added
    split at added
    · simp only [Option.some.injEq, Prod.mk.injEq] at added
      exact .inl ⟨added.2.1.symm, trivial⟩
    · rcases bpAddLocked_cases count added with ⟨-, rfl⟩ | ⟨-, i, below, free, rfl⟩
      · exact .inl ⟨rfl, trivial⟩
      · exact .inr (.inl ⟨i, below, free, rfl, trivial⟩)
  | remove address =>
    obtain rfl := Option.some.inj stepped
    rcases s.bpRemove_cases address with ⟨i, found, result⟩ | ⟨absent, result⟩
    · obtain ⟨armed, rfl, -⟩ := findArmed_eq_some.mp found
      refine .inr (.inr ⟨i, armed, by rw [result], fun safe => safe (by simp [found]),
        fun shown _ => shown⟩)
    · exact .inl ⟨by rw [result], fun found => by simp [absent] at found⟩

/-- What a run of calls keeps besides the bytes. -/
structure Listing (s t : Bp) : Prop where
  addr : t.bpAddr = s.bpAddr
  count : t.bpCount = s.bpCount
  trap : t.bpTrapCount = s.bpTrapCount

/-- A whole call keeps the list and the trap count. -/
theorem callStep_listing {call : BpCall} (count : 0 ≤ s.bpCount)
    (stepped : callStep s call = some t) : Listing s t := by
  rcases callStep_cases count stepped with ⟨rfl, -⟩ | ⟨i, -, -, rfl, -⟩ | ⟨i, -, rfl, -⟩
  · exact ⟨rfl, rfl, rfl⟩
  · exact ⟨rfl, rfl, rfl⟩
  · exact ⟨rfl, rfl, rfl⟩

/-- A lost byte stays lost over a run of calls. -/
theorem Lost.run {calls : List BpCall} (h : s.Lost original a) (count : 0 ≤ s.bpCount)
    (ran : run callStep s calls = some t) : t.Lost original a := by
  refine (run_invariant (I := fun u => u.Lost original a ∧ 0 ≤ u.bpCount) ?_ ⟨h, count⟩ ran).1
  rintro u call v ⟨lost, nonneg⟩ stepped
  refine ⟨?_, by rw [(callStep_listing nonneg stepped).count]; exact nonneg⟩
  rcases callStep_cases nonneg stepped with ⟨rfl, -⟩ | ⟨i, below, -, rfl, -⟩ | ⟨i, armed, rfl, -⟩
  · exact lost
  · exact lost.arm below
  · exact lost.disarm armed

/-- A run of calls keeps every byte exactly when each of its calls is safe, and otherwise
loses one for good. -/
theorem run_kept {calls : List BpCall} (h : ∀ a, s.Kept original a) (count : 0 ≤ s.bpCount)
    (ran : run callStep s calls = some t) :
    (Admits callStep SafeCall s calls ∧ ∀ a, t.Kept original a) ∨
      (¬Admits callStep SafeCall s calls ∧ ∃ a, t.Lost original a) := by
  induction calls generalizing s with
  | nil =>
    obtain rfl := Option.some.inj ran
    exact .inl ⟨trivial, h⟩
  | cons call calls ih =>
    obtain ⟨u, first, rest⟩ := run_cons_eq_some.mp ran
    have nonneg : 0 ≤ u.bpCount := by rw [(callStep_listing count first).count]; exact count
    have onward (safe : SafeCall s call) (kept : ∀ a, u.Kept original a) :
        (Admits callStep SafeCall s (call :: calls) ∧ ∀ a, t.Kept original a) ∨
          (¬Admits callStep SafeCall s (call :: calls) ∧ ∃ a, t.Lost original a) := by
      rcases ih kept nonneg rest with ⟨later, all⟩ | ⟨later, lost⟩
      · refine .inl ⟨⟨safe, fun v step => ?_⟩, all⟩
        rwa [← Option.some.inj (first.symm.trans step)]
      · exact .inr ⟨fun admits => later (admits.2 u first), lost⟩
    rcases callStep_cases count first with ⟨rfl, safe⟩ | ⟨i, below, free, rfl, safe⟩ |
      ⟨i, armed, rfl, safe⟩
    · exact onward safe h
    · exact onward safe fun a => (h a).arm below free
    · by_cases shown : s.text (s.bpAddr i) = INT3
      · exact onward (safe.mpr shown) fun a => (h a).disarm armed shown
      · refine .inr ⟨fun admits => shown (safe.mp admits.1), s.bpAddr i, ?_⟩
        exact ((h _).lost_disarm armed shown).run nonneg rest

/-- Disarming the lowest armed entry of a state that `bp_clean` restores safely. -/
theorem cleanSafe_disarm (clean : CleanSafe s) {i : Nat} (armed : s.Armed i)
    (lowest : ∀ k, s.Armed k → i ≤ k) : CleanSafe (s.disarm i) := by
  intro k used
  obtain ⟨ne, here⟩ := armed_disarm.mp used
  refine ⟨?_, fun l above later => (clean k here).2 l above (armed_disarm.mp later).2⟩
  by_cases same : s.bpAddr k = s.bpAddr i
  · have above : i < k := by have := lowest k here; omega
    rw [disarm_bpAddr, same, disarm_text_self]
    exact (clean i armed).2 k above here same
  · rw [disarm_bpAddr, disarm_text_elsewhere same]
    exact (clean k here).1

/-- If the lowest armed entry shows its `INT3` and the rest is safe, the whole is. -/
theorem cleanSafe_of_disarm {i : Nat} (clean : CleanSafe (s.disarm i))
    (shown : s.text (s.bpAddr i) = INT3) (lowest : ∀ k, s.Armed k → i ≤ k) : CleanSafe s := by
  intro k used
  by_cases first : k = i
  · subst first
    refine ⟨shown, fun l above later same => ?_⟩
    have next := (clean l (armed_disarm.mpr ⟨by omega, later⟩)).1
    rwa [disarm_bpAddr, same, disarm_text_self] at next
  · have rest := clean k (armed_disarm.mpr ⟨first, used⟩)
    refine ⟨?_, fun l above later same => ?_⟩
    · by_cases same : s.bpAddr k = s.bpAddr i
      · rw [same, shown]
      · rw [← disarm_text_elsewhere (i := i) same]
        exact rest.1
    · have := lowest k used
      exact rest.2 l above (armed_disarm.mpr ⟨by omega, later⟩) same

/-- `bp_clean` from a state in which every byte is kept: its own restores decide. -/
theorem bpCleanLocked_kept (h : ∀ a, s.Kept original a) :
    (CleanSafe s ∧ ∀ a, s.bpCleanLocked.text a = original a) ∨
      (¬CleanSafe s ∧ ∃ a, s.bpCleanLocked.Lost original a) := by
  by_cases safe : CleanSafe s
  · obtain ⟨⟨kept, -⟩, disarmed⟩ := bpCleanLocked_spec
      (P := fun u => (∀ a, u.Kept original a) ∧ CleanSafe u)
      (fun u i hu armed lowest => ⟨fun a => (hu.1 a).disarm armed (hu.2 i armed).1,
        cleanSafe_disarm hu.2 armed lowest⟩) (fun u hu => hu) ⟨h, safe⟩
    refine .inl ⟨safe, fun a => ?_⟩
    rcases kept a with ⟨inMemory, -⟩ | ⟨-, i, armed, -⟩
    · exact inMemory
    · exact absurd armed (disarmed i)
  · have keeps (u : Bp) (i : Nat)
        (hu : ((∀ a, u.Kept original a) ∧ ¬CleanSafe u) ∨ ∃ a, u.Lost original a)
        (armed : u.Armed i) (lowest : ∀ k, u.Armed k → i ≤ k) :
        ((∀ a, (u.disarm i).Kept original a) ∧ ¬CleanSafe (u.disarm i)) ∨
          ∃ a, (u.disarm i).Lost original a := by
      rcases hu with ⟨kept, unclean⟩ | ⟨a, lost⟩
      · by_cases shown : u.text (u.bpAddr i) = INT3
        · exact .inl ⟨fun a => (kept a).disarm armed shown,
            fun clean => unclean (cleanSafe_of_disarm clean shown lowest)⟩
        · exact .inr ⟨_, (kept _).lost_disarm armed shown⟩
      · exact .inr ⟨a, lost.disarm armed⟩
    obtain ⟨⟨-, unclean⟩ | lost, disarmed⟩ :=
      bpCleanLocked_spec keeps (fun u hu => hu) (.inl ⟨h, safe⟩)
    · exact absurd (fun i armed => absurd armed (disarmed i)) unclean
    · exact .inr ⟨safe, lost⟩

/-- A lost byte stays lost over `bp_clean`. -/
theorem Lost.bpCleanLocked (h : s.Lost original a) : s.bpCleanLocked.Lost original a :=
  (bpCleanLocked_spec (P := fun u => u.Lost original a) (fun _ _ hu armed _ => hu.disarm armed)
    (fun _ hu => hu) h).1

end Bp

/-- For every list of addresses and every sequence of whole calls after `bp_init`, `bp_clean`
returns, and it leaves every byte as it was exactly when no restore of the sequence and none
of its own finds anything but `INT3` to overwrite. -/
theorem planting_undone_iff (s₀ : Bp) (addrList : Nat → Word) (n : Nat) (calls : List BpCall)
    (s : Bp) (ran : run callStep (s₀.bpInit addrList n) calls = some s) :
    ∃ t, s.bpClean = some t ∧
      ((∀ a, t.text a = s₀.text a) ↔
        Admits callStep SafeCall (s₀.bpInit addrList n) calls ∧ CleanSafe s) := by
  have count : 0 ≤ (s₀.bpInit addrList n).bpCount := by simp [Bp.bpInit_eq]
  have start : ∀ a, (s₀.bpInit addrList n).Kept s₀.text a := fun a =>
    .inl ⟨by rw [Bp.bpInit_eq], fun i armed => absurd armed (Bp.not_armed_bpInit s₀ addrList n i)⟩
  have trap : s.bpTrapCount = 0 := by
    have kept := run_invariant (I := fun u => u.bpTrapCount = 0 ∧ 0 ≤ u.bpCount)
      (fun u call v hu stepped => by
        have same := Bp.callStep_listing hu.2 stepped
        exact ⟨same.trap.trans hu.1, by rw [same.count]; exact hu.2⟩)
      ⟨by simp [Bp.bpInit_eq], count⟩ ran
    exact kept.1
  refine ⟨s.bpCleanLocked, by simp [Bp.bpClean, Bp.bpCleanLocked_bpTrapCount, trap], ?_⟩
  have ruined {a : Word} (lost : s.bpCleanLocked.Lost s₀.text a)
      (same : ∀ a, s.bpCleanLocked.text a = s₀.text a) : False :=
    lost.1 ((same a).symm.trans lost.2.1)
  rcases Bp.run_kept start count ran with ⟨safe, kept⟩ | ⟨unsafe', a, lost⟩
  · rcases Bp.bpCleanLocked_kept kept with ⟨clean, same⟩ | ⟨unclean, a, lost⟩
    · exact ⟨fun _ => ⟨safe, clean⟩, fun _ => same⟩
    · exact ⟨fun same => (ruined lost same).elim, fun h => absurd h.2 unclean⟩
  · exact ⟨fun same => (ruined lost.bpCleanLocked same).elim, fun h => absurd h.1 unsafe'⟩

/-- A list in which one address stands twice. -/
def listedTwice : Nat → Word := fun _ => 0x1000

/-- Armed one after the other, with a removal in between, the two entries leave no trace. -/
theorem planting_undone_in_turn :
    ∃ s t, run callStep ((Bp.loaded noops).bpInit listedTwice 2)
      [.add 0 [], .remove 0x1000, .add 1 []] = some s ∧ s.bpClean = some t ∧
        ∀ a, t.text a = noops a := by
  obtain ⟨t, cleaned, undone⟩ := planting_undone_iff (.loaded noops) listedTwice 2
    [.add 0 [], .remove 0x1000, .add 1 []] _ rfl
  refine ⟨_, t, rfl, cleaned, undone.mpr ⟨by decide, ?_⟩⟩
  rintro i ⟨below, used⟩
  obtain rfl | rfl : i = 0 ∨ i = 1 := by
    have : (i : Int) < 2 := below
    omega
  · exact absurd used (by decide)
  · refine ⟨by decide, fun k above later => ?_⟩
    have : (k : Int) < 2 := later.1
    omega

/-- Two entries of one address that are armed at the same time leave `INT3` behind. -/
theorem planting_left_when_nested :
    ∃ s t, run callStep ((Bp.loaded noops).bpInit listedTwice 2) [.add 0 [], .add 1 []] = some s ∧
      s.bpClean = some t ∧ t.text 0x1000 = INT3 ∧ t.text 0x1000 ≠ noops 0x1000 :=
  ⟨_, _, rfl, rfl, rfl, by decide⟩

end Drddr
