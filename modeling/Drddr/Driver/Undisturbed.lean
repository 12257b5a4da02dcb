import Drddr.Driver.Start

/-!
# `start` as a run of the control thread

What `start` does in the arithmetic of the machine is a run of the control thread of the driver in
which no handler moves: the loops, and their comparisons, are the list of calls of `bp_add` that
the control thread works off.
-/

namespace Drddr

open Machine

/-- What `start` reads of the files, as numbers. -/
def Files.args (f : Files) : StartArgs where
  address := f.entry
  addresscnt := f.uAddresscnt.toNat
  param := f.iParam.toInt

/-- The calls of `bp_add` that are left in the loop over a stride. -/
def strideChoices (f : Files) (i : Nat) : List Int :=
  let stride := f.iParam.toInt.natAbs
  (List.range' (i / stride) ((f.uAddresscnt.toNat + stride - 1) / stride - i / stride)).map
    fun j => ((j * stride : Nat) : Int)

/-- The choices that are left in the loop that counts. -/
def countChoices (f : Files) (i : Nat) : List Int :=
  List.replicate (f.iParam.toInt.toNat - i) (-1)

/-- The place of the control thread when `start` is somewhere. -/
def controlOf (f : Files) : StartPc → DriverPc
  | .init i => .initAddr f.args i.toNat
  | .choose => .adding (startChoices f.args)
  | .stride i => .adding (strideChoices f i.toNat)
  | .count i => .adding (countChoices f i.toNat)
  | .add _ .single => .adding [0]
  | .add _ (.stride i) => .adding (strideChoices f i.toNat)
  | .add _ (.count i) => .adding (countChoices f i.toNat)
  | .pick (.count i) => .addLocked (-1) (countChoices f (i.toNat + 1))
  | .finish => .adding []
  | .pick _ | .done | .fault => .idle

/-- `start` has returned. -/
def StartPc.isDone : StartPc → Bool
  | .done => true
  | _ => false

/-- The driver in which `start` has come to a state. -/
def driverAt (f : Files) (s : Driver) (c : Start) : Driver where
  shared := { s.shared with bp := c.bp }
  handlers := s.handlers
  running := c.pc.isDone || s.running
  control := controlOf f c.pc

/-- The control thread goes from one state of the driver to another. -/
def Controls (s t : Driver) : Prop :=
  ∃ draws : List (List (BitVec 32)), run driverStep s (draws.map .control) = some t

/-- The control thread may stay where it is. -/
theorem Controls.refl (s : Driver) : Controls s s := ⟨[], rfl⟩

/-- The control thread may go on from where it has come to. -/
theorem Controls.trans {s t u : Driver} (first : Controls s t) (second : Controls t u) :
    Controls s u := by
  obtain ⟨draws, ran⟩ := first
  obtain ⟨draws', ran'⟩ := second
  refine ⟨draws ++ draws', ?_⟩
  rw [List.map_append, run_append, ran]
  exact ran'

/-- A step of the control thread brings the driver to its next state. -/
theorem controls_step {s : Driver} {g : Shared} {running : Bool} {pc : DriverPc}
    (draws : List (BitVec 32))
    (moved : controlStep s.shared s.running draws s.control = some (g, running, pc)) :
    Controls s { s with shared := g, running := running, control := pc } := by
  refine ⟨[draws], run_cons_eq_some.mpr ⟨_, ?_, rfl⟩⟩
  rw [driverStep, moved]
  rfl

/-! ## The lists of calls -/

/-- A multiple of a stride is below a count just when it is one of so many. -/
theorem lt_strides_iff {n stride : Nat} (positive : 0 < stride) (j : Nat) :
    j < (n + stride - 1) / stride ↔ stride * j < n := by
  rw [← Nat.succ_le_iff, Nat.le_div_iff_mul_le positive, Nat.succ_mul, Nat.mul_comm j stride]
  omega

/-- A multiple of the stride below the count is the next choice. -/
theorem strideChoices_of_lt {f : Files} {i : Nat} (positive : 0 < f.iParam.toInt.natAbs)
    (multiple : f.iParam.toInt.natAbs ∣ i) (below : i < f.uAddresscnt.toNat) :
    strideChoices f i = (i : Int) :: strideChoices f (i + f.iParam.toInt.natAbs) := by
  obtain ⟨j, rfl⟩ := multiple
  have inside := (lt_strides_iff positive j).mpr below
  simp only [strideChoices, ← Nat.mul_succ, Nat.mul_div_cancel_left _ positive]
  generalize (f.uAddresscnt.toNat + f.iParam.toInt.natAbs - 1) / f.iParam.toInt.natAbs = number
    at inside ⊢
  rw [show number - j = number - (j + 1) + 1 by omega, List.range'_succ, List.map_cons,
    Nat.mul_comm j]

/-- From the count on no multiple of the stride is chosen. -/
theorem strideChoices_of_le {f : Files} {i : Nat} (positive : 0 < f.iParam.toInt.natAbs)
    (multiple : f.iParam.toInt.natAbs ∣ i) (above : f.uAddresscnt.toNat ≤ i) :
    strideChoices f i = [] := by
  obtain ⟨j, rfl⟩ := multiple
  have outside := mt (lt_strides_iff positive j).mp (Nat.not_lt_of_le above)
  simp only [strideChoices, Nat.mul_div_cancel_left _ positive]
  rw [show (f.uAddresscnt.toNat + f.iParam.toInt.natAbs - 1) / f.iParam.toInt.natAbs - j = 0
    by omega]
  rfl

/-- The loop over a stride begins with all of its calls to come. -/
theorem startChoices_of_striding {f : Files} (striding : Striding f.iParam) :
    startChoices f.args = strideChoices f 0 := by
  have range := striding
  rw [Striding] at range
  have several : ¬ f.args.param = -1 := by
    show ¬ f.iParam.toInt = -1
    omega
  rw [startChoices, if_neg several, if_pos ⟨striding.2, striding.1⟩, strideChoices]
  simp only [Nat.zero_div, Nat.sub_zero, ← List.range_eq_range']
  rfl

/-- Each round that counts is a choice. -/
theorem countChoices_of_lt {f : Files} {i : Nat} (below : i < f.iParam.toInt.toNat) :
    countChoices f i = -1 :: countChoices f (i + 1) := by
  rw [countChoices, countChoices, show f.iParam.toInt.toNat - i = f.iParam.toInt.toNat - (i + 1) + 1
    by omega]
  rfl

/-- The loop that counts begins with all of its calls to come. -/
theorem startChoices_of_counting {f : Files} (several : f.iParam.toInt ≠ -1)
    (counting : ¬ Striding f.iParam) :
    startChoices f.args = countChoices f 0 := by
  have several' : ¬ f.args.param = -1 := several
  have counting' : ¬ (f.args.param ≤ -2 ∧ -65536 ≤ f.args.param) :=
    fun both => counting ⟨both.2, both.1⟩
  rw [startChoices, if_neg several', if_neg counting']
  rfl

/-! ## One step -/

variable {random : Nat → BitVec 32} {f : Files} {old : Bp}

/-- The control thread takes the lock in `bp_add`. -/
theorem controls_lock {s : Driver} {bp : Bp} {running running' : Bool} {drawn drawn' : Nat}
    {pc pc' : StartPc} {choice : Int} {choices : List Int}
    (here : controlOf f pc = .adding (choice :: choices))
    (there : controlOf f pc' = .addLocked choice choices) (before : pc.isDone = false)
    (behind : pc'.isDone = false) (still : bp.bpStopping = false) :
    Controls (driverAt f s ⟨f, bp, running, drawn, pc⟩)
      (driverAt f s ⟨f, bp, running', drawn', pc'⟩) := by
  simp only [driverAt, here, there, before, behind, Bool.false_or]
  refine controls_step [] ?_
  simp only [controlStep, still, Bool.false_eq_true, if_false]

/-- The control thread runs the locked section of a `bp_add`. -/
theorem controls_locked {s : Driver} {bp bp' : Bp} {running running' : Bool} {drawn drawn' : Nat}
    {pc pc' : StartPc} {choice : Int} {choices : List Int}
    (here : controlOf f pc = .addLocked choice choices)
    (there : controlOf f pc' = .adding choices) (before : pc.isDone = false)
    (behind : pc'.isDone = false)
    {ok : Bool} {draws rest : List (BitVec 32)}
    (added : bp.bpAddLocked choice draws = some (ok, bp', rest)) :
    Controls (driverAt f s ⟨f, bp, running, drawn, pc⟩)
      (driverAt f s ⟨f, bp', running', drawn', pc'⟩) := by
  simp only [driverAt, here, there, before, behind, Bool.false_or]
  refine controls_step draws ?_
  simp only [controlStep, added, Option.map_some]

/-- The control thread runs `bp_add` up to its return. -/
theorem controls_add {s : Driver} {bp bp' : Bp} {running running' : Bool} {drawn drawn' : Nat}
    {pc pc' : StartPc} {choice : Int} {choices : List Int}
    (here : controlOf f pc = .adding (choice :: choices))
    (there : controlOf f pc' = .adding choices) (before : pc.isDone = false)
    (behind : pc'.isDone = false)
    (still : bp.bpStopping = false) {ok : Bool} {draws rest : List (BitVec 32)}
    (added : bp.bpAddLocked choice draws = some (ok, bp', rest)) :
    Controls (driverAt f s ⟨f, bp, running, drawn, pc⟩)
      (driverAt f s ⟨f, bp', running', drawn', pc'⟩) := by
  simp only [driverAt, here, there, before, behind, Bool.false_or]
  have first : Controls
      ⟨{ s.shared with bp }, s.handlers, s.running, .adding (choice :: choices)⟩
      ⟨{ s.shared with bp }, s.handlers, s.running, .addLocked choice choices⟩ := by
    refine controls_step [] ?_
    simp only [controlStep, still, Bool.false_eq_true, if_false]
  refine first.trans (controls_step draws ?_)
  simp only [controlStep, added, Option.map_some]

/-- The control thread runs `bp_add` of an index. -/
theorem controls_addAt {s : Driver} {bp : Bp} {running : Bool} {drawn : Nat} {choice : BitVec 32}
    {caller : StartLoop} {choices : List Int} (low : choice.toNat < 2 ^ 31)
    (here : controlOf f (.add choice caller) = .adding (choice.toInt :: choices))
    (there : controlOf f (caller.next f.iParam) = .adding choices)
    (behind : (caller.next f.iParam).isDone = false) (still : bp.bpStopping = false) :
    Controls (driverAt f s ⟨f, bp, running, drawn, .add choice caller⟩)
      (driverAt f s (Start.advance random ⟨f, bp, running, drawn, .add choice caller⟩)) := by
  have before : (StartPc.add choice caller).isDone = false := rfl
  have signed := toInt_cases choice
  have place : choice.toInt.toNat = choice.toNat := by omega
  have notRandom : ¬ choice.toInt = -1 := by omega
  have notNegative : ¬ choice.toInt < 0 := by omega
  have other : ¬ choice = -1 := by
    intro same
    rw [same] at low
    exact absurd low (by decide)
  by_cases outside : bp.bpCount ≤ choice.toInt
  · have refused : bp.bpAddLocked choice.toInt [] = some (false, bp, []) := by
      rw [Bp.bpAddLocked, if_neg notRandom, if_pos outside]
    rw [advance_add_refused random still other (.inl outside)]
    exact controls_add here there before behind still refused
  · by_cases used : bp.bpState choice.toNat = .USING
    · have refused : bp.bpAddLocked choice.toInt [] = some (false, bp, []) := by
        rw [Bp.bpAddLocked, if_neg notRandom, if_neg outside, if_neg notNegative, place,
          if_pos used]
      rw [advance_add_refused random still other (.inr used)]
      exact controls_add here there before behind still refused
    · have armed : bp.bpAddLocked choice.toInt [] = some (true, bp.arm choice.toNat, []) := by
        rw [Bp.bpAddLocked, if_neg notRandom, if_neg outside, if_neg notNegative, place,
          if_neg used]
      rw [advance_add_armed random still other outside used]
      exact controls_add here there before behind still armed

/-- The control thread waits while `start` makes a test. -/
theorem controls_test {s : Driver} {bp : Bp} {running running' : Bool} {drawn drawn' : Nat}
    {pc pc' : StartPc} (same : controlOf f pc = controlOf f pc') (here : pc.isDone = false)
    (there : pc'.isDone = false) :
    Controls (driverAt f s ⟨f, bp, running, drawn, pc⟩)
      (driverAt f s ⟨f, bp, running', drawn', pc'⟩) := by
  have stays : driverAt f s ⟨f, bp, running, drawn, pc⟩ =
      driverAt f s ⟨f, bp, running', drawn', pc'⟩ := by
    simp only [driverAt, same, here, there, Bool.false_or]
  rw [stays]
  exact .refl _

/-- The control thread follows a step of `start`. -/
def Follows (random : Nat → BitVec 32) (f : Files) (s : Driver) (c : Start) : Prop :=
  Controls (driverAt f s c) (driverAt f s (c.advance random))

/-- The control thread follows `start` in the loop of `bp_init`. -/
theorem follows_init (few : f.uAddresscnt.toNat ≤ N_ADDRESS) (s : Driver) {bp : Bp}
    {running : Bool} {drawn : Nat} {i : BitVec 32} (le : i.toNat ≤ f.entries) :
    Follows random f s ⟨f, bp, running, drawn, .init i⟩ := by
  simp only [N_ADDRESS] at few
  have number := entries_cases f
  have size := toInt_cases f.uAddresscnt
  have signed := toInt_cases i
  have number' : f.args.addresscnt = f.uAddresscnt.toNat := rfl
  by_cases below : i.toInt < f.uAddresscnt.toInt
  · have next : (i + 1).toNat = i.toNat + 1 :=
      toNat_succ (show i.toNat < f.uAddresscnt.toInt.toNat by omega)
    have first := @controls_step (driverAt f s ⟨f, bp, running, drawn, .init i⟩) _ _ _
      [] (if_pos (show i.toNat < f.args.addresscnt by omega))
    have second := first.trans (controls_step [] rfl)
    rw [← next] at second
    rw [Follows, advance_init random below]
    exact second
  · have first := @controls_step (driverAt f s ⟨f, bp, running, drawn, .init i⟩) _ _ _
      [] (if_neg (show ¬ i.toNat < f.args.addresscnt by omega))
    have second := first.trans (controls_step [] rfl)
    rw [Follows, advance_init_end random below]
    exact second

/-- The control thread follows `start` at the tests of `i_param`. -/
theorem follows_choose (s : Driver) {bp : Bp} {running : Bool} {drawn : Nat} :
    Follows random f s ⟨f, bp, running, drawn, .choose⟩ := by
  by_cases single : f.iParam.toInt = -1
  · have param : f.args.param = -1 := single
    by_cases some_entry : 0 < f.uAddresscnt
    · have positive : 0 < f.args.addresscnt := some_entry
      rw [Follows, advance_choose_single random single, if_pos some_entry]
      refine controls_test ?_ rfl rfl
      show DriverPc.adding (startChoices f.args) = .adding [0]
      rw [startChoices, if_pos param, if_pos positive]
    · have empty : ¬ 0 < f.args.addresscnt := some_entry
      rw [Follows, advance_choose_single random single, if_neg some_entry]
      refine controls_test ?_ rfl rfl
      show DriverPc.adding (startChoices f.args) = .adding []
      rw [startChoices, if_pos param, if_neg empty]
  · by_cases striding : Striding f.iParam
    · rw [Follows, advance_choose_stride random striding]
      refine controls_test ?_ rfl rfl
      exact congrArg DriverPc.adding (startChoices_of_striding striding)
    · rw [Follows, advance_choose_count random single striding]
      refine controls_test ?_ rfl rfl
      exact congrArg DriverPc.adding (startChoices_of_counting single striding)

/-- The control thread follows `start` at the test of the loop over a stride. -/
theorem follows_stride (s : Driver) {bp : Bp} {running : Bool} {drawn : Nat} {i : BitVec 32}
    (here : StrideHolds f bp i) : Follows random f s ⟨f, bp, running, drawn, .stride i⟩ := by
  have range := here.striding.2
  by_cases below : i < f.uAddresscnt
  · rw [Follows, advance_stride, if_pos below]
    exact controls_test rfl rfl rfl
  · rw [Follows, advance_stride, if_neg below]
    refine controls_test ?_ rfl rfl
    rw [BitVec.lt_def] at below
    exact congrArg DriverPc.adding (strideChoices_of_le (by omega) here.multiple (by omega))

/-- The control thread follows `start` at the test of the loop that counts. -/
theorem follows_count (s : Driver) {bp : Bp} {running : Bool} {drawn : Nat} {i : BitVec 32}
    (here : CountHolds f bp i) : Follows random f s ⟨f, bp, running, drawn, .count i⟩ := by
  have signed := toInt_cases i
  have bound := toInt_cases f.iParam
  have le := here.bound
  by_cases below : i.toInt < f.iParam.toInt
  · rw [Follows, advance_count, if_pos below]
    exact controls_test rfl rfl rfl
  · have empty : f.iParam.toInt.toNat - i.toNat = 0 := by omega
    rw [Follows, advance_count, if_neg below]
    refine controls_test ?_ rfl rfl
    show DriverPc.adding (countChoices f i.toNat) = .adding []
    rw [countChoices, empty]
    rfl

/-- The control thread follows `start` at `bp_add (i)`. -/
theorem follows_addStride (few : f.uAddresscnt.toNat ≤ N_ADDRESS) (s : Driver) {bp : Bp}
    {running : Bool} {drawn : Nat} {i : BitVec 32} (below : i < f.uAddresscnt)
    (here : StrideHolds f bp i) :
    Follows random f s ⟨f, bp, running, drawn, .add i (.stride i)⟩ := by
  simp only [N_ADDRESS] at few
  rw [BitVec.lt_def] at below
  have range := here.striding.2
  have signed := toInt_cases i
  have next := toNat_sub_of_striding here.striding (show i.toNat < 2 ^ 31 by omega)
  have value : (i.toNat : Int) = i.toInt := by omega
  have head := strideChoices_of_lt (by omega) here.multiple below
  rw [← next, value] at head
  exact controls_addAt (by omega) (congrArg DriverPc.adding head) rfl rfl here.running

/-- The control thread follows `start` at `bp_add (-1)`, as far as that does not draw. -/
theorem follows_addCount (bounded : Bounded f) (s : Driver) {bp : Bp} {running : Bool}
    {drawn : Nat} {i : BitVec 32} (below : i.toInt < f.iParam.toInt) (here : CountHolds f bp i) :
    Follows random f s ⟨f, bp, running, drawn, .add (-1) (.count i)⟩ := by
  obtain ⟨-, next, less⟩ := few_of_counting bounded below here.bound
  have head : controlOf f (.add (-1) (.count i)) = .adding (-1 :: countChoices f (i.toNat + 1)) :=
    congrArg DriverPc.adding (countChoices_of_lt less)
  by_cases full : bp.bpUsageCount = bp.bpCount
  · have refused : bp.bpAddLocked (-1) [] = some (false, bp, []) := by
      rw [Bp.bpAddLocked, if_pos rfl, if_pos full]
    rw [Follows, advance_add_random random here.running, if_pos full]
    refine controls_add head ?_ rfl rfl here.running refused
    exact congrArg (fun k => DriverPc.adding (countChoices f k)) next
  · rw [Follows, advance_add_random random here.running, if_neg full]
    exact controls_lock head rfl rfl rfl here.running

/-- The control thread follows `start` at a call of `random32`: it is given the last draw only. -/
theorem follows_pick (bounded : Bounded f) (s : Driver) {bp : Bp} {running : Bool} {drawn : Nat}
    {i : BitVec 32} (inv : StartInvariant f old ⟨f, bp, running, drawn, .pick (.count i)⟩) :
    Follows random f s ⟨f, bp, running, drawn, .pick (.count i)⟩ := by
  have count : bp.bpCount = f.uAddresscnt.toInt := inv.count
  have here : CountHolds f bp i := inv.holds.2.1
  have room : (List.range f.entries).countP (bp.bpState · = .USING) < f.entries := inv.holds.2.2
  have number := entries_cases f
  have size := toInt_cases f.uAddresscnt
  obtain ⟨-, next, less⟩ := few_of_counting bounded inv.holds.1 here.bound
  have bounds : 0 ≤ Start.draw random ⟨f, bp, running, drawn, .pick (.count i)⟩ ∧
      Start.draw random ⟨f, bp, running, drawn, .pick (.count i)⟩ < f.entries :=
    draw_bounds inv.count (by omega)
  have notFull : ¬ bp.bpUsageCount = bp.bpCount := by
    have entries : bp.bpCount.toNat = f.entries := by rw [count, Files.entries]
    rw [Bp.bpUsageCount, entries]
    omega
  have index : (random drawn % BitVec.ofInt 32 bp.bpCount).toNat =
      (Start.draw random ⟨f, bp, running, drawn, .pick (.count i)⟩).toNat := by
    have signed := toInt_cases (random drawn % BitVec.ofInt 32 bp.bpCount)
    have value : Start.draw random ⟨f, bp, running, drawn, .pick (.count i)⟩ =
      (random drawn % BitVec.ofInt 32 bp.bpCount).toInt := rfl
    omega
  generalize picked : Start.draw random ⟨f, bp, running, drawn, .pick (.count i)⟩ = k
    at bounds index
  by_cases used : bp.bpState k.toNat = .USING
  · rw [Follows, advance_pick_again random picked used]
    exact controls_test rfl rfl rfl
  · have found : bp.randomPick [random drawn] = some (k.toNat, []) := by
      simp only [Bp.randomPick, index, if_neg used]
    have armed : bp.bpAddLocked (-1) [random drawn] = some (true, bp.arm k.toNat, []) := by
      rw [Bp.bpAddLocked, if_pos rfl, if_neg notFull, found]
      rfl
    rw [Follows, advance_pick_armed random picked used]
    refine controls_locked rfl ?_ rfl rfl armed
    exact congrArg (fun k => DriverPc.adding (countChoices f k)) next

/-- The control thread follows `start` at every place. -/
theorem StartInvariant.follows (few : f.uAddresscnt.toNat ≤ N_ADDRESS) {c : Start}
    (inv : StartInvariant f old c) (s : Driver) : Follows random f s c := by
  obtain ⟨files, bp, running, drawn, pc⟩ := c
  by_cases returned : pc = .done
  · subst returned
    exact .refl _
  · obtain rfl : files = f := inv.files returned
    cases pc with
    | init i => exact follows_init few s inv.holds.1
    | choose => exact follows_choose s
    | stride i => exact follows_stride s inv.holds
    | count i => exact follows_count s inv.holds
    | add choice caller =>
      cases caller with
      | single =>
        have still : bp.bpStopping = false := inv.holds.2.1
        obtain rfl : choice = 0 := inv.holds.1
        exact controls_addAt (by decide) rfl rfl rfl still
      | stride i =>
        obtain rfl : choice = i := inv.holds.1
        exact follows_addStride few s inv.holds.2.1 inv.holds.2.2
      | count i =>
        obtain rfl : choice = -1 := inv.holds.1
        exact follows_addCount (.inl few) s inv.holds.2.1 inv.holds.2.2
    | pick caller =>
      cases caller with
      | single => exact inv.holds.elim
      | stride i => exact inv.holds.elim
      | count i => exact follows_pick (.inl few) s inv
    | finish =>
      have first := @controls_step (driverAt files s ⟨files, bp, running, drawn, .finish⟩) _ _ _
        [] rfl
      exact first.trans (controls_step [] rfl)
    | done => exact absurd rfl returned
    | fault => exact inv.holds.elim

/-! ## Every run -/

/-- What `start` by itself returns with is what the control thread returns with when no handler
moves in between. -/
theorem start_is_control_run (few : f.uAddresscnt.toNat ≤ N_ADDRESS) {bp : Bp} {c : Start}
    (returns : ReturnsTo random (starting f bp) c) {s : Driver}
    (here : s.control = .initCount f.args) (table : s.shared.bp = bp) :
    Controls s
      { s with shared := { s.shared with bp := c.bp }, running := true, control := .idle } := by
  have bounded : Bounded f := .inl few
  have follows : ∀ c, StartInvariant f bp c →
      Controls (driverAt f s c) (driverAt f s (c.step random)) := by
    intro c inv
    have good : StepHolds random f bp c := inv.stepHolds bounded
    rw [good.step_eq]
    exact inv.follows few s
  have ran : Controls (driverAt f s (starting f bp)) (driverAt f s c) :=
    returns.2.simulated Controls.refl (fun _ _ _ => Controls.trans)
      (fun c inv => inv.step bounded) follows (startInvariant_starting f bp)
  have number := entries_cases f
  have size := toInt_cases f.uAddresscnt
  simp only [N_ADDRESS] at few
  have counted : ((f.args.addresscnt : Nat) : Int) = f.uAddresscnt.toInt := by
    show ((f.uAddresscnt.toNat : Nat) : Int) = f.uAddresscnt.toInt
    omega
  have begins : Controls s (driverAt f s (starting f bp)) := by
    have first : controlStep s.shared s.running [] s.control =
        some ({ s.shared with bp := { bp with bpCount := f.uAddresscnt.toInt } }, s.running,
          .initAddr f.args 0) := by
      rw [here, ← table, ← counted]
      rfl
    exact controls_step [] first
  have ends : driverAt f s c =
      { s with shared := { s.shared with bp := c.bp }, running := true, control := .idle } := by
    simp only [driverAt, returns.1, controlOf, StartPc.isDone, Bool.true_or]
  rw [← ends]
  exact begins.trans ran

end Drddr
