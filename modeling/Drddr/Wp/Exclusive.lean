import Drddr.Wp.Control
import Drddr.Wp.Ids

/-!
# Slots and the identifiers that outlive them

Whole calls one after another, with the installations followed by serial number. A slot may be
freed and taken again any number of times while identifiers for it are kept elsewhere.
-/

namespace Drddr

open Machine

/-- One whole call. -/
def IdTable.call (g : IdTable) : WpCall → Option IdTable
  | .add req =>
    match g.wp.freeSlot with
    | some slot => some {
        wp := (wpAdd g.wp req).1
        installs := g.installs + 1
        occupant := Function.update g.occupant slot (g.installs + 1)
        returned := ⟨slot, g.installs + 1, g.installs + 1, (wpAdd g.wp req).2⟩ :: g.returned }
    | none => some { g with wp := (wpAdd g.wp req).1 }
  | .remove id => some { g with wp := g.wp.wpRemove id }
  | .clean => some { g with wp := g.wp.wpClean }

/-- The table after `wp_init`, with nothing installed. -/
def WpTable.followed (t : WpTable) : IdTable where
  wp := t.wpInit
  installs := 0
  occupant _ := 0
  returned := []

/-- The table changes as it does when nothing is followed. -/
theorem IdTable.call_table (g : IdTable) (c : WpCall) :
    (g.call c).map (·.wp) = wpCallStep g.wp c := by
  cases c with
  | add req =>
    simp only [call]
    cases g.wp.freeSlot with
    | some slot => rfl
    | none => rfl
  | remove id => rfl
  | clean => rfl

/-! ## The invariant -/

/-- The table is numbered, every identifier was returned before the next installation, and no
installation is in two slots. -/
structure IdTable.Exclusive (g : IdTable) : Prop where
  numbered : g.Numbered
  prompt : ∀ r ∈ g.returned, r.total = r.serial
  apart : ∀ i j, g.wp.wpUsage i = true → g.wp.wpUsage j = true → g.occupant i = g.occupant j → i = j

/-- The table is exclusive after `wp_init`. -/
theorem WpTable.followed_exclusive (t : WpTable) : t.followed.Exclusive := by
  refine ⟨⟨rfl, fun i used => ?_, fun r member => ?_⟩, fun r member => ?_, fun i j used => ?_⟩
  · exact absurd used (by simp [followed, wpInit])
  · exact absurd member List.not_mem_nil
  · exact absurd member List.not_mem_nil
  · exact absurd used (by simp [followed, wpInit])

namespace IdTable.Exclusive

variable {g g' : IdTable}

/-- A call that frees slots, and does nothing else, keeps the table exclusive. -/
theorem freed (exclusive : g.Exclusive) (count : g'.wp.wpTotalCount = g.wp.wpTotalCount)
    (num : g'.wp.wpNum = g.wp.wpNum) (fewer : ∀ i, g'.wp.wpUsage i = true → g.wp.wpUsage i = true)
    (installs : g'.installs = g.installs) (occupant : g'.occupant = g.occupant)
    (returned : g'.returned = g.returned) : g'.Exclusive := by
  obtain ⟨numbered, prompt, apart⟩ := exclusive
  refine ⟨⟨?_, fun i used => ?_, ?_⟩, ?_, fun i j used used' => ?_⟩
  · rw [count, installs]
    exact numbered.count
  · rw [num, installs, occupant]
    exact numbered.occupied i (fewer i used)
  · rw [returned, installs]
    exact numbered.returned
  · rw [returned]
    exact prompt
  · rw [occupant]
    exact apart i j (fewer i used) (fewer j used')

/-- An installation takes the next serial number. -/
theorem installed (exclusive : g.Exclusive) {req : WpRequest} {slot : Fin 4}
    (free : g.wp.freeSlot = some slot) (called : g.call (.add req) = some g') : g'.Exclusive := by
  obtain ⟨numbered, prompt, apart⟩ := exclusive
  -- The locked section and the read of the counter, as two steps of a processor.
  have locked := (CpuEffect.installed req 0 slot free).numbered_step numbered trivial
  have read := (CpuEffect.numbered slot (g.installs + 1)).numbered_step locked.1 locked.2.1
  simp only [call, wpAdd, free, Option.some.injEq] at called
  subst called
  refine ⟨read.1, fun r member => ?_, fun i j used used' same => ?_⟩
  · cases List.mem_cons.mp member with
    | inl new => rw [new]
    | inr old => exact prompt r old
  · have below (k : Fin 4) (other : k ≠ slot)
        (inUse : (g.wp.install slot req).wpUsage k = true) : g.wp.wpUsage k = true ∧
          g.occupant k ≤ g.installs := by
      have before : g.wp.wpUsage k = true := by
        simpa only [WpTable.install, Function.update_of_ne other] using inUse
      exact ⟨before, (numbered.occupied k before).2.1⟩
    by_cases first : i = slot
    · by_cases second : j = slot
      · exact first.trans second.symm
      · have old := (below j second used').2
        simp only [first, Function.update_self, Function.update_of_ne second] at same
        omega
    · by_cases second : j = slot
      · have old := (below i first used).2
        simp only [second, Function.update_self, Function.update_of_ne first] at same
        omega
      · simp only [Function.update_of_ne first, Function.update_of_ne second] at same
        exact apart i j (below i first used).1 (below j second used').1 same

/-- Every call keeps the table exclusive. -/
theorem step {c : WpCall} (exclusive : g.Exclusive) (called : g.call c = some g') :
    g'.Exclusive := by
  cases c with
  | add req =>
    cases free : g.wp.freeSlot with
    | some slot => exact exclusive.installed free called
    | none =>
      simp only [call, wpAdd, free, Option.some.injEq] at called
      subst called
      exact exclusive
  | remove id =>
    cases called
    have columns : (g.wp.wpRemove id).wpTotalCount = g.wp.wpTotalCount ∧
        (g.wp.wpRemove id).wpNum = g.wp.wpNum := by
      cases WpTable.wpRemove_cases (t := g.wp) id with
      | inl released => rw [released]; exact ⟨rfl, rfl⟩
      | inr unchanged => rw [unchanged]; exact ⟨rfl, rfl⟩
    exact exclusive.freed columns.1 columns.2 (fun i => (WpTable.wpRemove_keeps id i).1) rfl rfl rfl
  | clean =>
    cases called
    exact exclusive.freed rfl rfl (fun i used => absurd used (by simp [WpTable.wpClean])) rfl rfl
      rfl

end IdTable.Exclusive

/-! ## Exclusive slots -/

/-- What an addition may do: every slot in use stays as it is, and if anything changes, the slot of
the identifier was not in use before and is now. -/
structure TakesFree (t u : WpTable) (id : WatchpointId) : Prop where
  kept : ∀ i, t.wpUsage i = true → u.wpUsage i = true ∧ u.wpAddr i = t.wpAddr i ∧
    u.wpLength i = t.wpLength i ∧ u.wpIswrite i = t.wpIswrite i ∧ u.wpNum i = t.wpNum i
  taken : u ≠ t → t.wpUsage id.dr = false ∧ u.wpUsage id.dr = true

/-- `wp_add` takes only a slot that is free. -/
theorem wpAdd_takesFree (t : WpTable) (req : WpRequest) :
    TakesFree t (wpAdd t req).1 (wpAdd t req).2 := by
  unfold wpAdd
  cases free : t.freeSlot with
  | none => exact ⟨fun i used => ⟨used, rfl, rfl, rfl, rfl⟩, fun changed => absurd rfl changed⟩
  | some slot =>
    have unused := (WpTable.freeSlot_eq_some.mp free).1
    refine ⟨fun i used => ?_, fun _ => ⟨unused, Function.update_self ..⟩⟩
    have other : i ≠ slot := by
      rintro rfl
      rw [unused] at used
      contradiction
    simp [WpTable.install, Function.update_of_ne other, used]

/-- An identifier of a failed `wp_add`, whatever slot it names, frees nothing in use. -/
theorem IdTable.Numbered.invalid_frees_nothing {g : IdTable} (numbered : g.Numbered)
    (few : g.installs < 2 ^ 29) (dr : Fin 4) {j : Fin 4} (used : g.wp.wpUsage j = true) :
    (g.wp.wpRemove ⟨dr, -1⟩).wpUsage j = true := by
  by_cases same : j = dr
  · subst same
    obtain ⟨-, le, num⟩ := numbered.occupied j used
    have notAny : ¬((-1 : BitVec 30) = 0 ∨ (-1 : BitVec 30).signExtend 32 = g.wp.wpNum j) := by
      have extended : (-1 : BitVec 30).signExtend 32 = -1 := by decide
      rw [num, extended]
      rintro (zero | minus)
      · exact absurd zero (by decide)
      · have number := congrArg BitVec.toNat minus
        have all : (-1 : BitVec 32).toNat = 2 ^ 32 - 1 := by decide
        rw [all, BitVec.toNat_ofNat] at number
        omega
    rw [WpTable.wpRemove, if_neg notAny]
    exact used
  · cases WpTable.wpRemove_cases (t := g.wp) ⟨dr, -1⟩ with
    | inl released =>
      rw [released]
      simpa only [WpTable.release, Function.update_of_ne same] using used
    | inr unchanged =>
      rw [unchanged]
      exact used

/-- After every sequence of whole calls with fewer than `2 ^ 29` installations, `wp_add` takes only
a slot that is not in use and leaves the others as they are, slots in use have different numbers,
and an identifier that `wp_add` returned frees its own installation and no later one. -/
theorem slots_exclusive {t : WpTable} {calls : List WpCall} {g : IdTable}
    (ran : run IdTable.call t.followed calls = some g) (few : g.installs < 2 ^ 29) :
    (∀ req, TakesFree g.wp (wpAdd g.wp req).1 (wpAdd g.wp req).2) ∧
      (∀ i j, g.wp.wpUsage i = true → g.wp.wpUsage j = true → g.wp.wpNum i = g.wp.wpNum j → i = j) ∧
      (∀ r ∈ g.returned, g.RemovesOwn r) ∧
      ∀ dr j, g.wp.wpUsage j = true → (g.wp.wpRemove ⟨dr, -1⟩).wpUsage j = true := by
  have exclusive : g.Exclusive :=
    run_invariant (fun _ _ _ => IdTable.Exclusive.step) t.followed_exclusive ran
  have numbered := exclusive.numbered
  refine ⟨wpAdd_takesFree g.wp, fun i j used used' same => ?_, fun r member => ?_,
    fun dr j => numbered.invalid_frees_nothing few dr⟩
  · obtain ⟨-, le, num⟩ := numbered.occupied i used
    obtain ⟨-, le', num'⟩ := numbered.occupied j used'
    rw [num, num'] at same
    have serial := congrArg BitVec.toNat same
    simp only [BitVec.toNat_ofNat] at serial
    exact exclusive.apart i j used used' (by omega)
  · exact numbered.removesOwn few member (exclusive.prompt r member)

/-- Two watches, a debug trap that frees the first, a third watch in its slot, and the removal by
the identifier of the first. -/
def staleCalls : List WpCall :=
  [.add (byteRequest 0x1000), .add (byteRequest 0x2000), .remove ⟨0, 0⟩, .add (byteRequest 0x3000),
    .remove ⟨0, 1⟩]

/-- A stale identifier leaves the third watch in place, and each identifier frees its own
installation only. -/
theorem slots_exclusive_stale : ∃ g, run IdTable.call WpTable.loaded.followed staleCalls = some g ∧
    g.wp.wpUsage 0 = true ∧ g.wp.wpAddr 0 = 0x3000 ∧ ∀ r ∈ g.returned, g.RemovesOwn r := by
  refine ⟨_, rfl, by decide, by decide, ?_⟩
  have exclusive := @slots_exclusive WpTable.loaded staleCalls _ rfl (by decide)
  exact exclusive.2.2.1

/-! ## The width of an identifier -/

/-- An addition that takes a slot hands it over: the identifier is valid and no wildcard, and
`wp_remove` frees the slot by it. -/
structure HandsOver (u : WpTable) (slot : Fin 4) (id : WatchpointId) : Prop where
  valid : id.isValid = true
  notAny : id.num ≠ 0
  frees : (u.wpRemove id).wpUsage slot = false

/-- A number that a signed `int` holds, cut to the thirty bits of an identifier, is positive and
comes back the same exactly when it is below `2 ^ 29`. -/
theorem number_fits_iff {n : Nat} (positive : 1 ≤ n) (int : n < 2 ^ 31) :
    (0 ≤ (BitVec.ofNat 30 n).toInt ∧ BitVec.ofNat 30 n ≠ 0 ∧
        (BitVec.ofNat 30 n).signExtend 32 = BitVec.ofNat 32 n) ↔ n < 2 ^ 29 := by
  constructor
  · rintro ⟨nonneg, -, same⟩
    have number := congrArg BitVec.toInt same
    have low : (BitVec.ofNat 30 n).toInt < 2 ^ 29 := BitVec.toInt_lt
    rw [BitVec.toInt_signExtend_of_le (by decide), BitVec.toInt_eq_toNat_of_lt (x := .ofNat 32 n)
      (by rw [BitVec.toNat_ofNat]; omega), BitVec.toNat_ofNat] at number
    omega
  · intro few
    have number := toInt_number (w := 30) le_rfl few
    refine ⟨by omega, fun zero => ?_, BitVec.eq_of_toInt_eq ?_⟩
    · rw [zero] at number
      simp at number
      omega
    · rw [BitVec.toInt_signExtend_of_le (by decide), number, toInt_number (by decide) few]

/-- An addition that takes a slot with this number. -/
theorem handsOver_iff {t : WpTable} {req : WpRequest} {slot : Fin 4} {n : Nat}
    (free : t.freeSlot = some slot) (count : t.wpTotalCount + 1 = BitVec.ofNat 32 n)
    (positive : 1 ≤ n) (int : n < 2 ^ 31) :
    HandsOver (wpAdd t req).1 slot (wpAdd t req).2 ↔ n < 2 ^ 29 := by
  rw [← number_fits_iff positive int]
  have named : wpAdd t req = (t.install slot req, ⟨slot, BitVec.ofNat 30 n⟩) := by
    simp only [wpAdd, free, WpTable.install_wpTotalCount, count]
    rw [BitVec.setWidth_ofNat_of_le (by decide)]
  have stored : (t.install slot req).wpNum slot = BitVec.ofNat 32 n := by
    rw [← count]
    exact Function.update_self ..
  have used : (t.install slot req).wpUsage slot = true := Function.update_self ..
  rw [named]
  constructor
  · rintro ⟨valid, notAny, frees⟩
    refine ⟨of_decide_eq_true valid, notAny, ?_⟩
    by_contra other
    have missed : ¬(BitVec.ofNat 30 n = 0 ∨
        (BitVec.ofNat 30 n).signExtend 32 = (t.install slot req).wpNum slot) := by
      rw [stored]
      exact not_or.mpr ⟨notAny, other⟩
    rw [WpTable.wpRemove, if_neg missed, used] at frees
    contradiction
  · rintro ⟨valid, notAny, same⟩
    refine ⟨decide_eq_true valid, notAny, ?_⟩
    have found : (BitVec.ofNat 30 n).signExtend 32 = (t.install slot req).wpNum slot := by
      rw [stored, same]
    rw [WpTable.wpRemove, if_pos (.inr found)]
    exact Function.update_self ..

/-- After every sequence of whole calls, as long as the counter has not overflowed, an addition
that takes a slot hands it over exactly when fewer than `2 ^ 29` installations have been made with
it. -/
theorem slot_handed_over_iff {t : WpTable} {calls : List WpCall} {g : IdTable}
    (ran : run IdTable.call t.followed calls = some g) {req : WpRequest} {slot : Fin 4}
    (free : g.wp.freeSlot = some slot) (int : g.installs + 1 < 2 ^ 31) :
    HandsOver (wpAdd g.wp req).1 slot (wpAdd g.wp req).2 ↔ g.installs + 1 < 2 ^ 29 := by
  have exclusive : g.Exclusive :=
    run_invariant (fun _ _ _ => IdTable.Exclusive.step) t.followed_exclusive ran
  exact handsOver_iff free (next_number exclusive.numbered.count) (by omega) int

/-- A watch that the debug handler frees, some number of times. -/
def trappedWatches (n : Nat) : List WpCall :=
  (List.replicate n [WpCall.add (byteRequest 0x1000), .remove ⟨0, 0⟩]).flatten

/-- Watches that trap at once leave every slot free and are all counted. -/
theorem trappedWatches_installs (n : Nat) {g : IdTable} (free : ∀ i, g.wp.wpUsage i = false) :
    ∃ g', run IdTable.call g (trappedWatches n) = some g' ∧ g'.installs = g.installs + n ∧
      ∀ i, g'.wp.wpUsage i = false := by
  induction n generalizing g with
  | zero => exact ⟨g, rfl, rfl, free⟩
  | succ n ih =>
    have first : g.wp.freeSlot = some 0 :=
      WpTable.freeSlot_eq_some.mpr ⟨free 0, fun k below => absurd below (Fin.not_lt_zero k)⟩
    let added : IdTable := {
      wp := g.wp.install 0 (byteRequest 0x1000)
      installs := g.installs + 1
      occupant := Function.update g.occupant 0 (g.installs + 1)
      returned := ⟨0, g.installs + 1, g.installs + 1, (wpAdd g.wp (byteRequest 0x1000)).2⟩ ::
        g.returned }
    have add : g.call (.add (byteRequest 0x1000)) = some added := by
      simp only [IdTable.call, wpAdd, first, added]
    have remove : added.call (.remove ⟨0, 0⟩) =
        some { added with wp := added.wp.release 0 } := rfl
    have freed (i : Fin 4) : (added.wp.release 0).wpUsage i = false := by
      by_cases zero : i = 0
      · simp only [zero, WpTable.release, Function.update_self]
      · simpa only [added, WpTable.release, WpTable.install, Function.update_of_ne zero]
          using free i
    obtain ⟨g', ran, installs, unused⟩ := @ih { added with wp := added.wp.release 0 } freed
    refine ⟨g', ?_, by rw [installs]; simp only [added]; omega, unused⟩
    exact run_cons_eq_some.mpr ⟨added, add, run_cons_eq_some.mpr ⟨_, remove, ran⟩⟩

/-- The first addition hands over its slot. -/
theorem slot_handed_over_first :
    HandsOver (wpAdd WpTable.loaded.wpInit (byteRequest 0x1000)).1 0
      (wpAdd WpTable.loaded.wpInit (byteRequest 0x1000)).2 :=
  (@slot_handed_over_iff WpTable.loaded [] WpTable.loaded.followed rfl (byteRequest 0x1000) 0
    (by decide) (by decide)).mpr (by decide)

/-- The one with number `2 ^ 29` does not. -/
theorem slot_not_handed_over : ∃ calls g,
    run IdTable.call WpTable.loaded.followed calls = some g ∧ g.wp.freeSlot = some 0 ∧
      g.installs + 1 = 2 ^ 29 ∧
      ¬HandsOver (wpAdd g.wp (byteRequest 0x1000)).1 0 (wpAdd g.wp (byteRequest 0x1000)).2 := by
  obtain ⟨g, ran, installs, unused⟩ := @trappedWatches_installs (2 ^ 29 - 1)
    WpTable.loaded.followed (fun _ => rfl)
  have free : g.wp.freeSlot = some 0 :=
    WpTable.freeSlot_eq_some.mpr ⟨unused 0, fun k below => absurd below (Fin.not_lt_zero k)⟩
  have last : g.installs + 1 = 2 ^ 29 := by
    rw [installs]
    rfl
  have exclusive : g.Exclusive :=
    run_invariant (fun _ _ _ => IdTable.Exclusive.step) WpTable.loaded.followed_exclusive ran
  refine ⟨_, g, ran, free, last, fun handed => ?_⟩
  have few := (handsOver_iff free (next_number exclusive.numbered.count) (by omega)
    (by omega)).mp handed
  omega

end Drddr
