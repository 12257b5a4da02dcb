import Drddr.Driver.Start

/-!
# What `start` draws

With a positive parameter `start` calls `random32` until it has armed as many entries as it is
asked for. It returns if the numbers that are drawn keep coming to enough entries, and any set of
entries that the parameter allows can be the one that it arms.
-/

namespace Drddr

open Machine

/-- The entry that a number comes to. -/
def Files.drawnEntry (f : Files) (number : BitVec 32) : Nat := number.toNat % f.entries

/-- From the tests of `i_param` on only entries of a set are armed. -/
def ArmedWithin (f : Files) (within : Set Nat) (c : Start) : Prop :=
  match c.pc with
  | .init _ | .fault => True
  | _ => armedBelow c.bp f.entries ⊆ within

/-- Numbers that come to the entries of a set only, and to each of them again and again. -/
structure Recurring (f : Files) (random : Nat → BitVec 32) (within : Set Nat) : Prop where
  below : ∀ i ∈ within, i < f.entries
  inside : ∀ k, f.drawnEntry (random k) ∈ within
  recurs : ∀ i ∈ within, ∀ k, ∃ later, k ≤ later ∧ f.drawnEntry (random later) = i

variable {random : Nat → BitVec 32} {f : Files} {old : Bp} {within : Set Nat}

/-! ## A call of `random32` -/

/-- What is drawn is an entry: the number modulo the count. -/
theorem draw_eq (bounded : Bounded f) {c : Start} (count : c.bp.bpCount = f.uAddresscnt.toInt)
    (some_entry : 0 < f.entries) : (c.draw random).toNat = f.drawnEntry (random c.drawn) := by
  have few := entries_le bounded
  simp only [N_ADDRESS] at few
  have number := entries_cases f
  have same : f.uAddresscnt.toNat = f.entries := by omega
  have value : (random c.drawn % f.uAddresscnt).toNat = f.drawnEntry (random c.drawn) := by
    rw [BitVec.toNat_umod, same]
    rfl
  have small : f.drawnEntry (random c.drawn) < f.entries := Nat.mod_lt _ some_entry
  have signed := toInt_cases (random c.drawn % f.uAddresscnt)
  rw [Start.draw, count, BitVec.ofInt_toInt]
  omega

/-- A state in which `start` draws: fewer entries are armed than are asked for and than there
are. -/
theorem StartInvariant.picking {c : Start} (inv : StartInvariant f old c) {caller : StartLoop}
    (picks : c.pc = .pick caller) :
    0 < f.iParam.toInt ∧ f.iParam.toInt ≠ -1 ∧ ¬ Striding f.iParam ∧ 0 < f.entries ∧
      (armedBelow c.bp f.entries).ncard < min f.iParam.toInt.toNat f.entries := by
  have holds := inv.holds
  rw [picks] at holds
  cases caller with
  | single => exact holds.elim
  | stride i => exact holds.elim
  | count i =>
    obtain ⟨below, here, room⟩ := holds
    have armed := here.armed.2
    have bound := here.bound
    have signed := toInt_cases i
    have param := toInt_cases f.iParam
    rw [ncard_armedBelow, armed]
    rw [armed] at room
    refine ⟨?_, here.several, here.counting, ?_, ?_⟩
    · omega
    · omega
    · omega

/-- Where nothing is asked for or nothing is listed, nothing is drawn. -/
theorem returns_of_none (bounded : Bounded f) (bp : Bp) (random : Nat → BitVec 32)
    (quiet : f.iParam.toInt ≤ 0 ∨ f.entries = 0) : ∃ c, ReturnsTo random (starting f bp) c := by
  refine (returns_or_picksForever bounded bp random).resolve_right ?_
  rintro ⟨k, forever⟩
  obtain ⟨caller, picks⟩ := forever k le_rfl
  have inv : StartInvariant f bp ((Start.step random)^[k] (starting f bp)) :=
    iterate_invariant (fun c inv => inv.step bounded) (startInvariant_starting f bp) k
  obtain ⟨positive, -, -, some_entry, -⟩ := inv.picking picks
  omega

/-! ## Numbers that recur -/

/-- Where only entries of the set are armed, nothing else is armed behind the tests of `i_param`
either. -/
theorem ArmedWithin.of_subset {c : Start} (armed : armedBelow c.bp f.entries ⊆ within) :
    ArmedWithin f within c := by
  obtain ⟨files, bp, running, drawn, pc⟩ := c
  cases pc with
  | init | fault => exact trivial
  | choose | stride | count | add | pick | finish | done => exact armed

/-- One step arms an entry of the set, if it arms any. -/
theorem ArmedWithin.step (bounded : Bounded f) (several : f.iParam.toInt ≠ -1)
    (counting : ¬ Striding f.iParam) (inside : ∀ k, f.drawnEntry (random k) ∈ within) {c : Start}
    (inv : StartInvariant f old c) (armed : ArmedWithin f within c) :
    ArmedWithin f within (c.step random) := by
  have good : StepHolds random f old c := inv.stepHolds bounded
  have next : StartInvariant f old (c.advance random) := good.keeps
  rw [good.step_eq]
  obtain ⟨files, bp, running, drawn, pc⟩ := c
  cases pc with
  | done =>
    have now : armedBelow bp f.entries ⊆ within := armed
    exact .of_subset now
  | fault => exact trivial
  | init i =>
    obtain rfl : files = f := inv.files (by simp)
    by_cases below : i.toInt < files.uAddresscnt.toInt
    · rw [advance_init random below]
      exact trivial
    · rw [advance_init_end random below] at next ⊢
      refine .of_subset fun j used => ?_
      have fresh : bp.bpState j = .UNUSED := next.holds.2 j used.1
      have now : bp.bpState j = .USING := used.2
      rw [fresh] at now
      exact BpState.noConfusion now
  | choose =>
    obtain rfl : files = f := inv.files (by simp)
    have now : armedBelow bp files.entries ⊆ within := armed
    rw [advance_choose_count random several counting]
    exact .of_subset now
  | stride i =>
    obtain rfl : files = f := inv.files (by simp)
    exact absurd inv.holds.striding counting
  | count i =>
    obtain rfl : files = f := inv.files (by simp)
    have now : armedBelow bp files.entries ⊆ within := armed
    rw [advance_count]
    exact .of_subset now
  | finish =>
    have now : armedBelow bp f.entries ⊆ within := armed
    exact .of_subset now
  | add choice caller =>
    obtain rfl : files = f := inv.files (by simp)
    cases caller with
    | single => exact absurd inv.holds.2.2.1 several
    | stride i => exact absurd inv.holds.2.2.striding counting
    | count i =>
      have here : CountHolds files bp i := inv.holds.2.2
      obtain rfl : choice = -1 := inv.holds.1
      have now : armedBelow bp files.entries ⊆ within := armed
      rw [advance_add_random random here.running]
      exact .of_subset now
  | pick caller =>
    obtain rfl : files = f := inv.files (by simp)
    obtain ⟨-, -, -, some_entry, -⟩ := inv.picking rfl
    have number : (Start.draw random ⟨files, bp, running, drawn, .pick caller⟩).toNat =
        files.drawnEntry (random drawn) := draw_eq bounded inv.count some_entry
    have now : armedBelow bp files.entries ⊆ within := armed
    generalize picked : Start.draw random ⟨files, bp, running, drawn, .pick caller⟩ = k at number
    by_cases used : bp.bpState k.toNat = .USING
    · rw [advance_pick_again random picked used]
      exact .of_subset now
    · rw [advance_pick_armed random picked used]
      refine .of_subset fun j armed => ?_
      by_cases same : j = k.toNat
      · rw [same, number]
        exact inside drawn
      · have later : Function.update bp.bpState k.toNat .USING j = .USING := armed.2
        rw [Function.update_of_ne same] at later
        exact now ⟨armed.1, later⟩

/-- A draw after which another one follows came to an armed entry and changed nothing. -/
theorem StartInvariant.pick_again (bounded : Bounded f) {c : Start} (inv : StartInvariant f old c)
    {caller caller' : StartLoop} (picks : c.pc = .pick caller)
    (again : (c.step random).pc = .pick caller') :
    (c.step random).bp = c.bp ∧ (c.step random).drawn = c.drawn + 1 ∧
      c.bp.bpState (f.drawnEntry (random c.drawn)) = .USING := by
  obtain ⟨-, -, -, some_entry, -⟩ := inv.picking picks
  have number : (c.draw random).toNat = f.drawnEntry (random c.drawn) :=
    draw_eq bounded inv.count some_entry
  have good : StepHolds random f old c := inv.stepHolds bounded
  rw [good.step_eq] at again ⊢
  obtain ⟨files, bp, running, drawn, pc⟩ := c
  obtain rfl : pc = .pick caller := picks
  obtain rfl : files = f := inv.files (by simp)
  generalize picked : Start.draw random ⟨files, bp, running, drawn, .pick caller⟩ = k at number
  by_cases used : bp.bpState k.toNat = .USING
  · rw [advance_pick_again random picked used]
    exact ⟨rfl, rfl, number ▸ used⟩
  · rw [advance_pick_armed random picked used] at again
    cases caller with
    | single | stride | count => exact StartPc.noConfusion again

/-- Where too few of the entries are armed, one that is not will be drawn, and the drawing ends. -/
theorem not_picksForever (bounded : Bounded f) (bp : Bp) (recurring : Recurring f random within)
    (enough : min f.iParam.toInt.toNat f.entries ≤ within.ncard) :
    ¬ PicksForever random (starting f bp) := by
  rintro ⟨k, forever⟩
  have inv (m : Nat) : StartInvariant f bp ((Start.step random)^[m] (starting f bp)) :=
    iterate_invariant (fun c inv => inv.step bounded) (startInvariant_starting f bp) m
  obtain ⟨caller, picks⟩ := forever k le_rfl
  obtain ⟨-, -, -, -, fewer⟩ := (inv k).picking picks
  have finite : (armedBelow ((Start.step random)^[k] (starting f bp)).bp f.entries).Finite :=
    (Set.finite_lt_nat f.entries).subset fun i armed => armed.1
  obtain ⟨i, member, free⟩ :=
    Set.exists_mem_notMem_of_ncard_lt_ncard (fewer.trans_le enough) finite
  have again (d : Nat) : ∃ caller, ((Start.step random)^[k + d] (starting f bp)).pc =
      .pick caller := forever (k + d) (Nat.le_add_right k d)
  have next (d : Nat) : (Start.step random)^[k + (d + 1)] (starting f bp) =
      Start.step random ((Start.step random)^[k + d] (starting f bp)) :=
    Function.iterate_succ_apply' ..
  have still (d : Nat) :
      ((Start.step random)^[k + d] (starting f bp)).bp =
        ((Start.step random)^[k] (starting f bp)).bp ∧
      ((Start.step random)^[k + d] (starting f bp)).drawn =
        ((Start.step random)^[k] (starting f bp)).drawn + d := by
    induction d with
    | zero => exact ⟨rfl, rfl⟩
    | succ d ih =>
      obtain ⟨here, picks⟩ := again d
      obtain ⟨there, more⟩ := again (d + 1)
      rw [next] at more ⊢
      obtain ⟨same, one, -⟩ := (inv (k + d)).pick_again bounded picks more
      rw [same, one, ih.1, ih.2]
      exact ⟨rfl, rfl⟩
  obtain ⟨later, after, comes⟩ :=
    recurring.recurs i member ((Start.step random)^[k] (starting f bp)).drawn
  obtain ⟨d, rfl⟩ := Nat.exists_eq_add_of_le after
  obtain ⟨here, picks⟩ := again d
  obtain ⟨there, more⟩ := again (d + 1)
  rw [next] at more
  have used := ((inv (k + d)).pick_again bounded picks more).2.2
  rw [(still d).1, (still d).2, comes] at used
  exact free ⟨recurring.below i member, used⟩

/-- With numbers that recur within a set, `start` returns, and where it draws it arms entries of the
set only. -/
theorem returns_of_recurring (bounded : Bounded f) (bp : Bp) (recurring : Recurring f random within)
    (enough : min f.iParam.toInt.toNat f.entries ≤ within.ncard) :
    ∃ c, ReturnsTo random (starting f bp) c ∧
      (f.iParam.toInt ≠ -1 → ¬ Striding f.iParam → armedBelow c.bp f.entries ⊆ within) := by
  obtain ⟨c, last, reaches⟩ := (returns_or_picksForever bounded bp random).resolve_right
    (not_picksForever bounded bp recurring enough)
  refine ⟨c, ⟨last, reaches⟩, fun several counting => ?_⟩
  have both : StartInvariant f bp c ∧ ArmedWithin f within c :=
    reaches.invariant (I := fun c => StartInvariant f bp c ∧ ArmedWithin f within c)
      (fun c held => ⟨held.1.step bounded,
        held.2.step bounded several counting recurring.inside held.1⟩)
      ⟨startInvariant_starting f bp, trivial⟩
  have armed := both.2
  rw [ArmedWithin, last] at armed
  exact armed

/-! ## What can be armed -/

/-- There are numbers that come to the entries of a set, one after the other and again and again. -/
theorem exists_recurring (below : ∀ i ∈ within, i < f.entries) (int : f.entries < 2 ^ 32)
    {first : Nat} (member : first ∈ within) : ∃ random, Recurring f random within := by
  classical
  let choose (k : Nat) : Nat := if k % f.entries ∈ within then k % f.entries else first
  have chosen (k : Nat) : choose k ∈ within := by
    by_cases hit : k % f.entries ∈ within
    · rw [show choose k = k % f.entries from if_pos hit]
      exact hit
    · rw [show choose k = first from if_neg hit]
      exact member
  have entry (k : Nat) : f.drawnEntry (BitVec.ofNat 32 (choose k)) = choose k := by
    have small := below _ (chosen k)
    rw [Files.drawnEntry, BitVec.toNat_ofNat, Nat.mod_eq_of_lt (show choose k < 2 ^ 32 by omega),
      Nat.mod_eq_of_lt small]
  refine ⟨fun k => BitVec.ofNat 32 (choose k), below, fun k => ?_, fun i hit k => ?_⟩
  · rw [entry]
    exact chosen k
  · have small := below i hit
    have residue : (k * f.entries + i) % f.entries = i := by
      rw [Nat.mul_add_mod_self_right, Nat.mod_eq_of_lt small]
    refine ⟨k * f.entries + i, ?_, ?_⟩
    · have grows := Nat.le_mul_of_pos_right k (Nat.zero_lt_of_lt small)
      omega
    · rw [entry]
      show (if (k * f.entries + i) % f.entries ∈ within then _ else first) = i
      rw [residue, if_pos hit]

/-- Where nothing is drawn, only one set is asked for. -/
theorem Requested.unique {n : Nat} {p : Int} {armed armed' : Set Nat}
    (quiet : p ≤ 0 ∨ n = 0) (requested : Requested n p armed) (requested' : Requested n p armed') :
    armed = armed' := by
  rw [Requested] at requested requested'
  by_cases single : p = -1
  · rw [if_pos single] at requested requested'
    rw [requested, requested']
  · rw [if_neg single] at requested requested'
    by_cases striding : -65536 ≤ p ∧ p ≤ -2
    · rw [if_pos striding] at requested requested'
      rw [requested, requested']
    · rw [if_neg striding] at requested requested'
      by_cases positive : 0 ≤ p
      · rw [if_pos positive] at requested requested'
        have empty {set : Set Nat} (only : set ⊆ {i | i < n} ∧ set.ncard = min p.toNat n) :
            set = ∅ := by
          have finite : set.Finite := (Set.finite_lt_nat n).subset only.1
          rw [← Set.ncard_eq_zero finite, only.2]
          omega
        rw [empty requested, empty requested']
      · rw [if_neg positive] at requested requested'
        rw [requested, requested']

/-- A positive parameter is a number of entries. -/
theorem requested_iff_of_pos {n : Nat} {p : Int} {armed : Set Nat} (positive : 0 < p) :
    Requested n p armed ↔ armed ⊆ {i | i < n} ∧ armed.ncard = min p.toNat n := by
  rw [Requested, if_neg (by omega), if_neg (by omega), if_pos positive.le]

/-- What is armed when `start` has returned. -/
theorem requested_of_returnsTo (bounded : Bounded f) {bp : Bp} {c : Start}
    (returns : ReturnsTo random (starting f bp) c) :
    Requested f.entries f.iParam.toInt (armedBelow c.bp f.entries) :=
  (filled_of_returnsTo bounded returns).1.requested.1

/-- For a list that fits the tables, every address is an entry. -/
theorem entries_eq (few : f.uAddresscnt.toNat ≤ N_ADDRESS) : f.entries = f.uAddresscnt.toNat := by
  have number := entries_cases f
  simp only [N_ADDRESS] at few
  omega

/-- `start` returns when the numbers it draws come to every entry again and again, and then it has
armed what it is asked for. -/
theorem start_returns_of_fair (f : Files) (few : f.uAddresscnt.toNat ≤ N_ADDRESS) (bp : Bp)
    (random : Nat → BitVec 32)
    (fair : ∀ i < f.uAddresscnt.toNat, ∀ k, ∃ later, k ≤ later ∧
      (random later).toNat % f.uAddresscnt.toNat = i) :
    ∃ c, ReturnsTo random (starting f bp) c ∧
      Requested f.uAddresscnt.toNat f.iParam.toInt (armedBelow c.bp f.uAddresscnt.toNat) := by
  have bounded : Bounded f := .inl few
  rw [← entries_eq few] at fair ⊢
  have returns : ∃ c, ReturnsTo random (starting f bp) c := by
    by_cases none : f.entries = 0
    · exact returns_of_none bounded bp random (.inr none)
    · have all : Recurring f random {i | i < f.entries} :=
        ⟨fun i below => below, fun k => Nat.mod_lt _ (Nat.pos_of_ne_zero none), fair⟩
      have size : ({i | i < f.entries} : Set Nat).ncard = f.entries := by
        have finite : ({i | i < f.entries} : Set Nat) = ↑(Finset.range f.entries) := by
          ext i
          simp
        rw [finite, Set.ncard_coe_finset, Finset.card_range]
      obtain ⟨c, returns, -⟩ :=
        returns_of_recurring bounded bp all ((Nat.min_le_right _ _).trans_eq size.symm)
      exact ⟨c, returns⟩
  obtain ⟨c, returns⟩ := returns
  exact ⟨c, returns, requested_of_returnsTo bounded returns⟩

/-- With numbers that count up, `start` arms two of three entries and returns. -/
theorem start_returns_of_fair_two :
    ∃ c, ReturnsTo (BitVec.ofNat 32) (starting twoOfThree (.loaded noops)) c ∧
      Requested 3 2 (armedBelow c.bp 3) := by
  refine start_returns_of_fair twoOfThree (by decide) (.loaded noops) (BitVec.ofNat 32) ?_
  intro i below k
  have small : i < 3 := below
  refine ⟨3 * 2 ^ 32 * k + i, by omega, ?_⟩
  show (3 * 2 ^ 32 * k + i) % 2 ^ 32 % 3 = i
  omega

/-- The sets of entries that `start` can arm, for some numbers that are drawn, are those that its
parameter asks for. -/
theorem start_arms_iff (f : Files) (few : f.uAddresscnt.toNat ≤ N_ADDRESS) (bp : Bp)
    (armed : Set Nat) :
    (∃ random c, ReturnsTo random (starting f bp) c ∧
      armedBelow c.bp f.uAddresscnt.toNat = armed) ↔
      Requested f.uAddresscnt.toNat f.iParam.toInt armed := by
  have bounded : Bounded f := .inl few
  have most := entries_le bounded
  simp only [N_ADDRESS] at most
  rw [← entries_eq few]
  constructor
  · rintro ⟨random, c, returns, rfl⟩
    exact requested_of_returnsTo bounded returns
  · intro requested
    by_cases none : f.iParam.toInt ≤ 0 ∨ f.entries = 0
    · obtain ⟨c, returns⟩ := returns_of_none bounded bp (fun _ => 0) none
      exact ⟨_, c, returns,
        Requested.unique none (requested_of_returnsTo bounded returns) requested⟩
    · have several : f.iParam.toInt ≠ -1 := by omega
      have counting : ¬ Striding f.iParam := fun striding => by
        have negative := striding.2
        omega
      have asked := (requested_iff_of_pos (by omega)).mp requested
      have finite : armed.Finite := (Set.finite_lt_nat f.entries).subset asked.1
      obtain ⟨first, member⟩ : armed.Nonempty := by
        rw [← Set.ncard_pos finite, asked.2]
        omega
      obtain ⟨random, recurring⟩ :=
        exists_recurring (f := f) asked.1 (by omega) member
      obtain ⟨c, returns, within⟩ := returns_of_recurring bounded bp recurring asked.2.ge
      refine ⟨random, c, returns, ?_⟩
      have done := (requested_iff_of_pos (by omega)).mp (requested_of_returnsTo bounded returns)
      exact Set.eq_of_subset_of_ncard_le (within several counting)
        (asked.2.trans done.2.symm).le finite

/-- With some numbers, `start` arms the first and the last of three entries. -/
theorem start_arms_iff_two :
    ∃ random c, ReturnsTo random (starting twoOfThree (.loaded noops)) c ∧
      armedBelow c.bp 3 = {0, 2} := by
  refine (start_arms_iff twoOfThree (by decide) (.loaded noops) {0, 2}).mpr ⟨?_, ?_⟩
  · rintro i (rfl | rfl)
    · decide
    · decide
  · exact Set.ncard_pair (by decide)

end Drddr
