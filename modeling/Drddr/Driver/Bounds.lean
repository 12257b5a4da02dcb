import Drddr.Driver.Start

/-!
# The bounds of the tables

Which contents of the files keep `start` inside the tables of the driver, and in its loops only
finitely long. A count below `2 ^ 31` is the length of the loop of `bp_init`; a greater one is
negative there, and is met by the comparisons of the other loops and of `bp_add` in turn.
-/

namespace Drddr

open Machine

/-- Every access of the run is inside the tables. -/
def InBounds (random : Nat → BitVec 32) (c : Start) : Prop :=
  ∀ c', Reaches (Start.step random) c c' → ∀ i ∈ c'.indices random, InTable i

variable {random : Nat → BitVec 32} {f : Files} {bp : Bp}

/-- Where the count is bounded, `start` keeps to the tables. -/
theorem inBounds_of_bounded (bounded : Bounded f) (bp : Bp) (random : Nat → BitVec 32) :
    InBounds random (starting f bp) := by
  intro c reaches
  have inv : StartInvariant f bp c :=
    reaches.invariant (fun c inv => inv.step bounded) (startInvariant_starting f bp)
  have good : StepHolds random f bp c := inv.stepHolds bounded
  exact good.inside

/-! ## Leaving the tables -/

/-- A state of a run that has not faulted. -/
structure Comes (random : Nat → BitVec 32) (f : Files) (bp : Bp) (pc : StartPc) (c : Start) :
    Prop where
  reaches : Reaches (Start.step random) (starting f bp) c
  files : c.files = f
  count : c.bp.bpCount = f.uAddresscnt.toInt
  here : c.pc = pc

/-- A step inside the tables is taken. -/
theorem step_of_inside {c : Start} (inside : ∀ i ∈ c.indices random, InTable i) :
    c.step random = c.advance random := if_pos inside

/-- A step that has no access to the tables is taken. -/
theorem step_of_quiet {c : Start} (quiet : c.indices random = []) :
    c.step random = c.advance random :=
  step_of_inside fun _ touched => absurd (quiet ▸ touched) List.not_mem_nil

/-- A multiple below the count is given to `bp_add`. -/
theorem Comes.stride {i : BitVec 32} {c : Start} (comes : Comes random f bp (.stride i) c)
    (below : i < f.uAddresscnt) :
    Comes random f bp (.add i (.stride i)) { c with pc := .add i (.stride i) } := by
  obtain ⟨files, table, running, drawn, pc⟩ := c
  obtain rfl : files = f := comes.files
  obtain rfl : pc = .stride i := comes.here
  have taken := (step_of_quiet rfl).trans (@advance_stride random files table running drawn i)
  rw [if_pos below] at taken
  exact ⟨comes.reaches.next taken, rfl, comes.count, rfl⟩

/-- The loop of `bp_init` goes on as long as there are entries in the list and in the tables. -/
theorem comes_init (k : Nat) (most : k ≤ N_ADDRESS) (below : k ≤ f.entries) :
    ∃ i c, i.toNat = k ∧ Comes random f bp (.init i) c := by
  induction k with
  | zero => exact ⟨0, starting f bp, rfl, .refl _, rfl, rfl, rfl⟩
  | succ k ih =>
    obtain ⟨i, c, place, comes⟩ := ih (by omega) (by omega)
    have next : (i + 1).toNat = i.toNat + 1 :=
      toNat_succ (show i.toNat < f.uAddresscnt.toInt.toNat from by
        rw [Files.entries] at below
        omega)
    have number := entries_cases f
    have signed := toInt_cases i
    have size := toInt_cases f.uAddresscnt
    have less : i.toInt < f.uAddresscnt.toInt := by omega
    have entry : InTable i.toInt := by
      rw [InTable]
      omega
    obtain ⟨files, table, running, drawn, pc⟩ := c
    obtain rfl : files = f := comes.files
    obtain rfl : pc = .init i := comes.here
    have inside : ∀ j ∈ Start.indices random ⟨files, table, running, drawn, .init i⟩,
        InTable j := by
      intro j touched
      simp only [Start.indices, if_pos less, List.mem_singleton] at touched
      rw [touched]
      exact entry
    have taken := (step_of_inside inside).trans (advance_init random less)
    exact ⟨i + 1, _, by omega, comes.reaches.next taken, rfl, comes.count, rfl⟩

/-- A list that is longer than the tables. -/
theorem leaves_init (many : N_ADDRESS < f.uAddresscnt.toNat)
    (positive : f.uAddresscnt.toNat < 2 ^ 31) : ¬ InBounds random (starting f bp) := by
  have number := entries_cases f
  obtain ⟨i, c, place, comes⟩ := @comes_init random f bp N_ADDRESS (Nat.le_refl _) (by omega)
  have signed := toInt_cases i
  have size := toInt_cases f.uAddresscnt
  have less : i.toInt < c.files.uAddresscnt.toInt := by
    rw [comes.files]
    omega
  intro bounds
  have inside : InTable i.toInt := bounds c comes.reaches _ (by
    simp only [Start.indices, comes.here, if_pos less, List.mem_singleton])
  rw [InTable, N_ADDRESS] at inside
  rw [N_ADDRESS] at place
  omega

/-- A negative count ends the loop of `bp_init` at once. -/
theorem comes_choose (negative : 2 ^ 31 ≤ f.uAddresscnt.toNat) :
    ∃ c, Comes random f bp .choose c ∧ c.bp.bpStopping = false := by
  have size := toInt_cases f.uAddresscnt
  have zero : (0 : BitVec 32).toInt = 0 := rfl
  have empty : ¬ (0 : BitVec 32).toInt < f.uAddresscnt.toInt := by omega
  have quiet : (starting f bp).indices random = [] := if_neg empty
  exact ⟨_, ⟨.next (.refl _) ((step_of_quiet quiet).trans (if_neg empty)), rfl, rfl, rfl⟩, rfl⟩

/-- The loop over a stride comes to each multiple of the stride below `2 ^ 31` when the count is
negative, and arms nothing on its way. -/
theorem comes_stride (negative : 2 ^ 31 ≤ f.uAddresscnt.toNat) (striding : Striding f.iParam)
    (j : Nat) (low : ∀ l < j, l * f.iParam.toInt.natAbs < 2 ^ 31) :
    ∃ i c, i.toNat = j * f.iParam.toInt.natAbs ∧ Comes random f bp (.stride i) c ∧
      c.bp.bpStopping = false := by
  induction j with
  | zero =>
    obtain ⟨c, comes, open'⟩ := @comes_choose random f bp negative
    obtain ⟨files, table, running, drawn, pc⟩ := c
    obtain rfl : files = f := comes.files
    obtain rfl : pc = .choose := comes.here
    have taken := (step_of_quiet rfl).trans
      (@advance_choose_stride random files table running drawn striding)
    refine ⟨0, _, ?_, ⟨comes.reaches.next taken, rfl, comes.count, rfl⟩, open'⟩
    rw [Nat.zero_mul]
    rfl
  | succ j ih =>
    obtain ⟨i, c, place, comes, open'⟩ := ih fun l before => low l (by omega)
    have size := toInt_cases f.uAddresscnt
    have signed := toInt_cases i
    have here := low j (Nat.lt_succ_self j)
    have below : i < f.uAddresscnt := by
      rw [BitVec.lt_def]
      omega
    have outside : c.bp.bpCount ≤ i.toInt := by
      rw [comes.count]
      omega
    have empty : c.bp.bpCount.toNat = 0 := by
      rw [comes.count]
      omega
    have index : i ≠ -1 := by
      intro same
      rw [same] at place
      have top : (-1 : BitVec 32).toNat = 4294967295 := rfl
      omega
    have added := comes.stride below
    obtain ⟨files, table, running, drawn, pc⟩ := c
    obtain rfl : files = f := comes.files
    have silent : Start.indices random ⟨files, table, running, drawn, .add i (.stride i)⟩ = [] := by
      rw [indices_add random open', if_pos (.inr outside)]
      simp only [Start.usageIndices, empty]
      rfl
    have taken := (step_of_quiet silent).trans
      (advance_add_refused random open' index (.inl outside))
    refine ⟨i - files.iParam, _, ?_, ⟨added.reaches.next taken, rfl, comes.count, rfl⟩, open'⟩
    rw [toNat_sub_of_striding striding (by omega), place, Nat.succ_mul]

/-- A multiple of the stride that is negative as an `int` but below the count is an index. -/
theorem leaves_stride {m : Nat} (striding : Striding f.iParam) (high : 2 ^ 31 ≤ m)
    (below : m < f.uAddresscnt.toNat) (multiple : f.iParam.toInt.natAbs ∣ m) :
    ¬ InBounds random (starting f bp) := by
  have range := striding
  rw [Striding] at range
  obtain ⟨l, rfl⟩ := multiple
  -- the first multiple that is not in the lower half
  have exists' : ∃ j, 2 ^ 31 ≤ j * f.iParam.toInt.natAbs := ⟨l, by rw [Nat.mul_comm]; exact high⟩
  have least : Nat.find exists' ≤ l := Nat.find_le (by rw [Nat.mul_comm]; exact high)
  have reached : 2 ^ 31 ≤ Nat.find exists' * f.iParam.toInt.natAbs := Nat.find_spec exists'
  have size : Nat.find exists' * f.iParam.toInt.natAbs ≤ f.iParam.toInt.natAbs * l := by
    rw [Nat.mul_comm]
    exact Nat.mul_le_mul_left _ least
  obtain ⟨i, c, place, comes, open'⟩ := @comes_stride random f bp (by omega) striding
    (Nat.find exists') fun k before => Nat.lt_of_not_le (Nat.find_min exists' before)
  have count := toInt_cases f.uAddresscnt
  have signed := toInt_cases i
  have inside : i < f.uAddresscnt := by
    rw [BitVec.lt_def]
    omega
  have index : i ≠ -1 := by
    intro same
    rw [same] at place
    have top : (-1 : BitVec 32).toNat = 4294967295 := rfl
    have most := f.uAddresscnt.isLt
    omega
  have below : ¬ c.bp.bpCount ≤ i.toInt := by
    rw [comes.count]
    omega
  intro bounds
  have touched : i.toInt ∈ Start.indices random { c with pc := .add i (.stride i) } := by
    rw [indices_add random open', if_neg fun either => either.elim index below]
    exact List.mem_append_right _ (List.mem_singleton.mpr rfl)
  have inTable : InTable i.toInt := bounds _ (comes.stride inside).reaches _ touched
  rw [InTable] at inTable
  omega

/-- With a negative count `bp_add (-1)` draws from all numbers below the unsigned one. -/
theorem leaves_count (negative : 2 ^ 31 ≤ f.uAddresscnt.toNat) (positive : 0 < f.iParam.toInt) :
    ¬ InBounds (fun _ => BitVec.ofNat 32 N_ADDRESS) (starting f bp) := by
  generalize draws : (fun _ => BitVec.ofNat 32 N_ADDRESS : Nat → BitVec 32) = random
  obtain ⟨c, comes, open'⟩ := @comes_choose random f bp negative
  have size := toInt_cases f.uAddresscnt
  have several : f.iParam.toInt ≠ -1 := by omega
  have counting : ¬ Striding f.iParam := by
    intro striding
    have range := striding.2
    omega
  have empty : c.bp.bpCount.toNat = 0 := by
    rw [comes.count]
    omega
  have room : ¬ c.bp.bpUsageCount = c.bp.bpCount := by
    rw [Bp.bpUsageCount, empty, comes.count]
    show ¬ ((0 : Nat) : Int) = _
    omega
  obtain ⟨files, table, running, drawn, pc⟩ := c
  obtain rfl : files = f := comes.files
  obtain rfl : pc = .choose := comes.here
  have first := (step_of_quiet rfl).trans
    (@advance_choose_count random files table running drawn several counting)
  have second := (step_of_quiet rfl).trans (@advance_count random files table running drawn 0)
  rw [if_pos (show (0 : BitVec 32).toInt < files.iParam.toInt from positive)] at second
  have silent : Start.indices random ⟨files, table, running, drawn, .add (-1) (.count 0)⟩ = [] := by
    rw [indices_add random open', if_pos (.inl rfl)]
    simp only [Start.usageIndices, empty]
    rfl
  have third := (step_of_quiet silent).trans (advance_add_random random open')
  rw [if_neg room] at third
  intro bounds
  have inTable : InTable (Start.draw random ⟨files, table, running, drawn, .pick (.count 0)⟩) :=
    bounds _ (((comes.reaches.next first).next second).next third) _ (List.mem_singleton.mpr rfl)
  have value : Start.draw random ⟨files, table, running, drawn, .pick (.count 0)⟩ = N_ADDRESS := by
    have number : random drawn = BitVec.ofNat 32 N_ADDRESS := by rw [← draws]
    have small : N_ADDRESS < 2 ^ 31 := by decide
    show (random drawn % BitVec.ofInt 32 table.bpCount).toInt = N_ADDRESS
    rw [comes.count, BitVec.ofInt_toInt, number]
    have remainder : (BitVec.ofNat 32 N_ADDRESS % files.uAddresscnt).toNat = N_ADDRESS := by
      rw [BitVec.toNat_umod]
      exact Nat.mod_eq_of_lt (Nat.lt_of_lt_of_le (by decide) negative)
    have signed := toInt_cases (BitVec.ofNat 32 N_ADDRESS % files.uAddresscnt)
    omega
  rw [value] at inTable
  exact absurd inTable.2 (Int.lt_irrefl _)

/-- Where `start` keeps to the tables, the count is bounded. -/
theorem bounded_of_inBounds (bounds : ∀ random, InBounds random (starting f bp)) : Bounded f := by
  by_contra unbounded
  rw [Bounded, not_or] at unbounded
  obtain ⟨many, other⟩ := unbounded
  by_cases negative : 2 ^ 31 ≤ f.uAddresscnt.toNat
  · by_cases positive : 0 < f.iParam.toInt
    · exact leaves_count negative positive (bounds _)
    · by_cases striding : Striding f.iParam
      · refine other ⟨negative, by omega, fun _ m high below multiple => ?_⟩
        exact leaves_stride striding high below multiple (bounds fun _ => 0)
      · exact other ⟨negative, by omega, fun stride => absurd stride striding⟩
  · exact leaves_init (by omega) (by omega) (bounds fun _ => 0)

/-! ## Drawing -/

/-- The first entry that is to be armed at random is found at once. -/
theorem returns_of_one (bounded : Bounded f)
    (one : f.iParam.toInt ≤ 1 ∨ f.uAddresscnt.toNat ≤ 1) (bp : Bp) (random : Nat → BitVec 32) :
    ∃ c, ReturnsTo random (starting f bp) c := by
  rcases returns_or_picksForever bounded bp random with returns | ⟨k, forever⟩
  · exact returns
  · exfalso
    obtain ⟨caller, here⟩ := forever k (Nat.le_refl k)
    obtain ⟨caller', next⟩ := forever (k + 1) (Nat.le_succ k)
    rw [Function.iterate_succ_apply'] at next
    have inv := @iterate_invariant Start (Start.step random) (StartInvariant f bp)
      (fun c inv => inv.step bounded) (starting f bp) (startInvariant_starting f bp) k
    generalize (Start.step random)^[k] (starting f bp) = c at here next inv
    have good : StepHolds random f bp c := inv.stepHolds bounded
    have holds := inv.holds
    rw [here] at holds
    cases caller with
    | single => exact holds
    | stride i => exact holds
    | count i =>
      obtain ⟨below, counting, room⟩ := holds
      have number := entries_cases f
      have size := toInt_cases f.iParam
      have signed := toInt_cases i
      have armed := counting.armed.2
      have empty : (List.range f.entries).countP (c.bp.bpState · = .USING) = 0 := by omega
      have picked : 0 ≤ c.draw random ∧ c.draw random < f.entries :=
        draw_bounds inv.count (by omega)
      have free : ¬ c.bp.bpState (c.draw random).toNat = .USING := by
        have unused := List.countP_eq_zero.mp empty (c.draw random).toNat
          (List.mem_range.mpr (by omega))
        simpa using unused
      rw [good.step_eq] at next
      simp only [Start.advance, here, if_neg free, StartLoop.next, reduceCtorEq] at next

/-- No entry but the first is armed, once `bp_init` has returned. -/
def OnlyFirst (f : Files) (c : Start) : Prop :=
  (∃ i, c.pc = .init i) ∨ ∀ j < f.entries, c.bp.bpState j = .USING → j = 0

/-- Draws of zero change no other entry. -/
theorem bpState_step_zero (bounded : Bounded f) (several : 1 < f.iParam.toInt) {c : Start}
    (inv : StartInvariant f bp c) (behind : ∀ i, c.pc ≠ .init i) {j : Nat} (other : j ≠ 0) :
    (c.step fun _ => 0).bp.bpState j = c.bp.bpState j := by
  have good : StepHolds (fun _ => 0) f bp c := inv.stepHolds bounded
  rw [good.step_eq]
  obtain ⟨files, table, running, drawn, pc⟩ := c
  cases pc with
  | init i => exact absurd rfl (behind i)
  | choose =>
    simp only [Start.advance]
    split
    · rfl
    · split
      · rfl
      · rfl
  | add choice caller =>
    cases caller with
    | single =>
      have single : f.iParam.toInt = -1 := inv.holds.2.2.1
      omega
    | stride i =>
      have striding := inv.holds.2.2.striding.2
      omega
    | count i =>
      have here : CountHolds f table i := inv.holds.2.2
      obtain rfl : choice = -1 := inv.holds.1
      rw [advance_add_random _ here.running]
  | pick caller =>
    have zero :
        (Start.draw (fun _ => 0) ⟨files, table, running, drawn, .pick caller⟩).toNat = 0 := by
      simp [Start.draw]
    by_cases used : table.bpState
        (Start.draw (fun _ => 0) ⟨files, table, running, drawn, .pick caller⟩).toNat = .USING
    · rw [advance_pick_again _ rfl used]
    · rw [advance_pick_armed _ rfl used, zero]
      exact Function.update_of_ne other _ _
  | stride i => rfl
  | count i => rfl
  | finish => rfl
  | done => rfl
  | fault => rfl

/-- With draws of zero alone, no entry but the first is armed behind `bp_init`. -/
theorem OnlyFirst.step (bounded : Bounded f) (several : 1 < f.iParam.toInt) {c : Start}
    (inv : StartInvariant f bp c) (first : OnlyFirst f c) :
    OnlyFirst f (c.step fun _ => 0) := by
  by_cases begins : ∃ i, c.pc = .init i
  · have good : StepHolds (fun _ => 0) f bp c := inv.stepHolds bounded
    have next := good.keeps.holds
    rw [good.step_eq]
    obtain ⟨i, here⟩ := begins
    obtain ⟨files, table, running, drawn, pc⟩ := c
    obtain rfl : pc = .init i := here
    by_cases below : i.toInt < files.uAddresscnt.toInt
    · rw [advance_init _ below]
      exact .inl ⟨_, rfl⟩
    · rw [advance_init_end _ below] at next ⊢
      refine .inr fun j inside used => ?_
      rw [next.2 j inside] at used
      exact absurd used (by decide)
  · refine .inr fun j inside used => ?_
    by_contra other
    rw [bpState_step_zero bounded several inv (not_exists.mp begins) other] at used
    exact other (first.resolve_left begins j inside used)

/-- Two of several entries are never armed by draws of zero. -/
theorem not_returnsTo_zero (bounded : Bounded f) (several : 1 < f.iParam.toInt)
    (entries : 1 < f.uAddresscnt.toNat) {c : Start} :
    ¬ ReturnsTo (fun _ => 0) (starting f bp) c := by
  intro returns
  have filled := (filled_of_returnsTo bounded returns).1
  have both := @Reaches.invariant Start (Start.step fun _ => 0)
    (fun c => StartInvariant f bp c ∧ OnlyFirst f c)
    (fun c inv => ⟨inv.1.step bounded, inv.2.step bounded several inv.1⟩) (starting f bp) c
    ⟨startInvariant_starting f bp, .inl ⟨0, rfl⟩⟩ returns.2
  have behind : ¬ ∃ i, c.pc = .init i := by
    rw [returns.1]
    simp
  have only := both.2.resolve_left behind
  have number := entries_cases f
  have counting : ¬ Striding f.iParam := by
    intro striding
    have range := striding.2
    omega
  have few : f.uAddresscnt.toNat ≤ N_ADDRESS := by
    rcases bounded with few | ⟨-, negative, -⟩
    · exact few
    · omega
  rw [Filled, if_neg (by omega), if_neg counting] at filled
  have armed := filled.2
  rw [← ncard_armedBelow] at armed
  have inZero : armedBelow c.bp f.entries ⊆ {0} := fun i used => only i used.1 used.2
  have atMost := Set.ncard_le_ncard inZero (Set.finite_singleton 0)
  rw [Set.ncard_singleton] at atMost
  simp only [N_ADDRESS] at few
  omega

/-- After any writes to the files, `start` keeps to the tables, and its loops end unless one of
`bp_add` draws used entries without end, just when the count is at most their length, or it is at
least `2 ^ 31` and `i_param` neither asks for random entries nor is a stride with a multiple from
there up to the count; it returns whatever is drawn just when moreover `i_param` asks for at most
one random entry or the list has at most one. -/
theorem start_inBounds_iff (old : Files) (writes : List FileWrite) (bp : Bp) :
    ((∀ random, InBounds random (starting (writes.foldl Files.write old) bp) ∧
        ((∃ c, ReturnsTo random (starting (writes.foldl Files.write old) bp) c) ∨
          PicksForever random (starting (writes.foldl Files.write old) bp))) ↔
      Bounded (writes.foldl Files.write old)) ∧
    ((∀ random, InBounds random (starting (writes.foldl Files.write old) bp) ∧
        ∃ c, ReturnsTo random (starting (writes.foldl Files.write old) bp) c) ↔
      Bounded (writes.foldl Files.write old) ∧
        ((writes.foldl Files.write old).iParam.toInt ≤ 1 ∨
          (writes.foldl Files.write old).uAddresscnt.toNat ≤ 1)) := by
  generalize writes.foldl Files.write old = f
  constructor
  · constructor
    · exact fun holds => bounded_of_inBounds fun random => (holds random).1
    · exact fun bounded random =>
        ⟨inBounds_of_bounded bounded bp random, returns_or_picksForever bounded bp random⟩
  · constructor
    · intro holds
      have bounded : Bounded f := bounded_of_inBounds fun random => (holds random).1
      refine ⟨bounded, ?_⟩
      by_contra many
      rw [not_or] at many
      obtain ⟨c, returns⟩ := (holds fun _ => 0).2
      exact not_returnsTo_zero bounded (by omega) (by omega) returns
    · exact fun ⟨bounded, one⟩ random =>
        ⟨inBounds_of_bounded bounded bp random, returns_of_one bounded one bp random⟩

/-- Files with one address too many, and no parameter. -/
def tooMany : Files :=
  [.addresscnt 131073, .param (-1)].foldl Files.write ⟨fun _ => 0, 0, -1⟩

/-- With one address too many `bp_init` leaves the tables. -/
theorem start_leaves_tables : ¬ InBounds (fun _ => 0) (starting tooMany (.loaded noops)) :=
  leaves_init (by decide) (by decide)

end Drddr
