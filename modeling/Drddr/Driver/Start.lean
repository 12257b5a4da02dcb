import Drddr.Driver
import Drddr.Machine.Iterate
import Mathlib.Data.Set.Card

/-!
# Starting a session

`start` by itself, in the arithmetic of the machine. The count that its file holds is unsigned;
`bp_init` takes it as an `int`, a loop of `start` compares it with an `int` as unsigned, and
`bp_add` reduces what it draws modulo it. An `int` that overflows wraps, as in a kernel. An index
outside the tables ends the run: C does not say what follows.
-/

namespace Drddr

open Machine

/-! ## Files -/

/-- What the files of the driver hold. -/
structure Files where
  /-- The bytes of `address`. -/
  address : Nat → Byte
  uAddresscnt : BitVec 32
  iParam : BitVec 32

/-- `simple_write_to_buffer`: what lies beyond the end of the buffer is not taken. -/
def simpleWriteToBuffer (dest : Nat → Byte) (available pos : Nat) (buf : List Byte) : Nat → Byte :=
  fun k => if pos ≤ k ∧ k < available then buf.getD (k - pos) (dest k) else dest k

/-- A write to one of the files. -/
inductive FileWrite where
  | address (pos : Nat) (buf : List Byte)
  | addresscnt (value : BitVec 32)
  | param (value : BitVec 32)

/-- `write_address`, and the files that debugfs serves itself. -/
def Files.write (f : Files) : FileWrite → Files
  | .address pos buf =>
    { f with address := simpleWriteToBuffer f.address (N_ADDRESS * 8) pos buf }
  | .addresscnt value => { f with uAddresscnt := value }
  | .param value => { f with iParam := value }

/-- `address[i]`. -/
def Files.entry (f : Files) (i : Nat) : Word :=
  (List.range 8).foldr (fun k word => word <<< 8 ||| (f.address (8 * i + k)).setWidth 64) 0

/-! ## The machine -/

/-- Where `start` calls `bp_add`, with the `int i` of the loop there. -/
inductive StartLoop where
  | single
  | stride (i : BitVec 32)
  | count (i : BitVec 32)
  deriving DecidableEq

/-- Where `start` is. -/
inductive StartPc where
  /-- In `bp_init`, before the test of the loop. -/
  | init (i : BitVec 32)
  /-- Before the tests of `i_param`. -/
  | choose
  /-- Before the test of the loop over a stride. -/
  | stride (i : BitVec 32)
  /-- Before the test of the loop that counts. -/
  | count (i : BitVec 32)
  /-- In `bp_add`, at its beginning. -/
  | add (choice : BitVec 32) (caller : StartLoop)
  /-- In `bp_add`, before a call of `random32`. -/
  | pick (caller : StartLoop)
  /-- Before `i_param` is reset. -/
  | finish
  /-- `start` has returned. -/
  | done
  /-- An index was outside the tables. -/
  | fault
  deriving DecidableEq

/-- Where `start` goes on after a call of `bp_add`. -/
def StartLoop.next (iParam : BitVec 32) : StartLoop → StartPc
  | .single => .finish
  | .stride i => .stride (i - iParam)
  | .count i => .count (i + 1)

/-- The state of `start`. -/
structure Start where
  files : Files
  bp : Bp
  running : Bool
  /-- How often `random32` has been called. -/
  drawn : Nat
  pc : StartPc

/-- An index of `address`, `bp_addr`, `bp_state` and `bp_backup`. -/
def InTable (i : Int) : Prop := 0 ≤ i ∧ i < N_ADDRESS

instance (i : Int) : Decidable (InTable i) := inferInstanceAs (Decidable (_ ∧ _))

namespace Start

variable (random : Nat → BitVec 32)

/-- `random32 () % bp_count`, an `int`. The count is converted to unsigned; it is not zero here. -/
def draw (c : Start) : Int := (random c.drawn % BitVec.ofInt 32 c.bp.bpCount).toInt

/-- The indices that `bp_usage_count` reads at. -/
def usageIndices (c : Start) : List Int := (List.range c.bp.bpCount.toNat).map Int.ofNat

/-- The indices at which the next step reads or writes the tables. -/
def indices (c : Start) : List Int :=
  match c.pc with
  | .init i => if i.toInt < c.files.uAddresscnt.toInt then [i.toInt] else []
  | .add choice _ =>
    if c.bp.bpStopping then []
    else if choice = -1 ∨ c.bp.bpCount ≤ choice.toInt then c.usageIndices
    else c.usageIndices ++ [choice.toInt]
  | .pick _ => [c.draw random]
  | _ => []

/-- What the next step does if its indices are in the tables. -/
def advance (c : Start) : Start :=
  match c.pc with
  | .init i =>
    if i.toInt < c.files.uAddresscnt.toInt then
      { c with bp := c.bp.bpInitEntry i.toNat (c.files.entry i.toNat), pc := .init (i + 1) }
    else { c with bp := { c.bp with bpTrapCount := 0, bpStopping := false }, pc := .choose }
  | .choose =>
    if c.files.iParam.toInt = -1 then
      { c with pc := if 0 < c.files.uAddresscnt then .add 0 .single else .finish }
    else if c.files.iParam.toInt ≤ -2 ∧ -65536 ≤ c.files.iParam.toInt then
      { c with pc := .stride 0 }
    else { c with pc := .count 0 }
  | .stride i =>
    { c with pc := if i < c.files.uAddresscnt then .add i (.stride i) else .finish }
  | .count i =>
    { c with pc := if i.toInt < c.files.iParam.toInt then .add (-1) (.count i) else .finish }
  | .add choice caller =>
    let next := caller.next c.files.iParam
    if c.bp.bpStopping then { c with pc := next }
    else if choice = -1 then
      { c with pc := if c.bp.bpUsageCount = c.bp.bpCount then next else .pick caller }
    else if c.bp.bpCount ≤ choice.toInt then { c with pc := next }
    else if c.bp.bpState choice.toNat = .USING then { c with pc := next }
    else { c with bp := c.bp.arm choice.toNat, pc := next }
  | .pick caller =>
    let i := (c.draw random).toNat
    if c.bp.bpState i = .USING then { c with drawn := c.drawn + 1 }
    else
      { c with
        bp := c.bp.arm i
        drawn := c.drawn + 1
        pc := caller.next c.files.iParam }
  | .finish => { c with files := { c.files with iParam := -1 }, running := true, pc := .done }
  | .done | .fault => c

/-- The next step. -/
def step (c : Start) : Start :=
  if ∀ i ∈ c.indices random, InTable i then c.advance random else { c with pc := .fault }

end Start

/-- `start`, when `bp_init` has stored the count; `stop` or nothing has come before it. -/
def starting (f : Files) (bp : Bp) : Start where
  files := f
  bp := { bp with bpCount := f.uAddresscnt.toInt }
  running := false
  drawn := 0
  pc := .init 0

/-! ## Machine integers -/

/-- A signed number is the unsigned one, or that less the modulus. -/
theorem toInt_cases (x : BitVec 32) :
    x.toNat < 2 ^ 31 ∧ x.toInt = x.toNat ∨ 2 ^ 31 ≤ x.toNat ∧ x.toInt = x.toNat - 2 ^ 32 := by
  have small := x.isLt
  rw [BitVec.toInt_eq_toNat_cond]
  split <;> omega

/-- An `int` that is below another one is not the greatest. -/
theorem toNat_succ {i n : BitVec 32} (below : i.toNat < n.toInt.toNat) :
    (i + 1).toNat = i.toNat + 1 := by
  have small := i.isLt
  have bound := toInt_cases n
  have one : (1 : BitVec 32).toNat = 1 := rfl
  rw [BitVec.toNat_add, one]
  omega

/-- `i_param` is a stride. -/
def Striding (p : BitVec 32) : Prop := -65536 ≤ p.toInt ∧ p.toInt ≤ -2

instance (p : BitVec 32) : Decidable (Striding p) := inferInstanceAs (Decidable (_ ∧ _))

/-- A step of the stride does not overflow in the lower half of the numbers. -/
theorem toNat_sub_of_striding {i p : BitVec 32} (striding : Striding p) (low : i.toNat < 2 ^ 31) :
    (i - p).toNat = i.toNat + p.toInt.natAbs := by
  have signed := toInt_cases p
  rw [Striding] at striding
  rw [BitVec.toNat_sub]
  omega

/-! ## The steps -/

section

variable (random : Nat → BitVec 32) {f : Files} {bp : Bp} {running : Bool} {drawn : Nat}

/-- A round of the loop of `bp_init` fills one entry. -/
theorem advance_init {i : BitVec 32} (below : i.toInt < f.uAddresscnt.toInt) :
    Start.advance random ⟨f, bp, running, drawn, .init i⟩ =
      ⟨f, bp.bpInitEntry i.toNat (f.entry i.toNat), running, drawn, .init (i + 1)⟩ :=
  if_pos below

/-- Behind its loop `bp_init` resets the trap count and the flag. -/
theorem advance_init_end {i : BitVec 32} (outside : ¬ i.toInt < f.uAddresscnt.toInt) :
    Start.advance random ⟨f, bp, running, drawn, .init i⟩ =
      ⟨f, { bp with bpTrapCount := 0, bpStopping := false }, running, drawn, .choose⟩ :=
  if_neg outside

/-- Behind the tests of `i_param`, a single entry is added. -/
theorem advance_choose_single (single : f.iParam.toInt = -1) :
    Start.advance random ⟨f, bp, running, drawn, .choose⟩ =
      ⟨f, bp, running, drawn, if 0 < f.uAddresscnt then .add 0 .single else .finish⟩ :=
  if_pos single

/-- Behind the tests of `i_param`, the loop over a stride begins. -/
theorem advance_choose_stride (striding : Striding f.iParam) :
    Start.advance random ⟨f, bp, running, drawn, .choose⟩ = ⟨f, bp, running, drawn, .stride 0⟩ := by
  have range := striding
  rw [Striding] at range
  have several : ¬ f.iParam.toInt = -1 := by omega
  exact (if_neg several).trans (if_pos ⟨striding.2, striding.1⟩)

/-- Behind the tests of `i_param`, the loop that counts begins. -/
theorem advance_choose_count (several : f.iParam.toInt ≠ -1) (counting : ¬ Striding f.iParam) :
    Start.advance random ⟨f, bp, running, drawn, .choose⟩ = ⟨f, bp, running, drawn, .count 0⟩ :=
  (if_neg several).trans (if_neg fun both => counting ⟨both.2, both.1⟩)

/-- The loop over a stride adds the next multiple or ends. -/
theorem advance_stride (i : BitVec 32) :
    Start.advance random ⟨f, bp, running, drawn, .stride i⟩ =
      ⟨f, bp, running, drawn, if i < f.uAddresscnt then .add i (.stride i) else .finish⟩ := rfl

/-- The loop that counts adds another entry or ends. -/
theorem advance_count (i : BitVec 32) :
    Start.advance random ⟨f, bp, running, drawn, .count i⟩ =
      ⟨f, bp, running, drawn,
        if i.toInt < f.iParam.toInt then .add (-1) (.count i) else .finish⟩ := rfl

/-- A call of `bp_add (-1)` is left at once when every entry is used, and draws otherwise. -/
theorem advance_add_random {caller : StartLoop} (still : bp.bpStopping = false) :
    Start.advance random ⟨f, bp, running, drawn, .add (-1) caller⟩ =
      ⟨f, bp, running, drawn,
        if bp.bpUsageCount = bp.bpCount then caller.next f.iParam else .pick caller⟩ := by
  simp only [Start.advance, still, Bool.false_eq_true, if_false, if_true]

/-- `bp_add` of an index that is refused leaves the table. -/
theorem advance_add_refused {choice : BitVec 32} {caller : StartLoop}
    (still : bp.bpStopping = false) (index : choice ≠ -1)
    (refused : bp.bpCount ≤ choice.toInt ∨ bp.bpState choice.toNat = .USING) :
    Start.advance random ⟨f, bp, running, drawn, .add choice caller⟩ =
      ⟨f, bp, running, drawn, caller.next f.iParam⟩ := by
  simp only [Start.advance, still, Bool.false_eq_true, if_false, if_neg index]
  by_cases outside : bp.bpCount ≤ choice.toInt
  · rw [if_pos outside]
  · rw [if_neg outside, if_pos (refused.resolve_left outside)]

/-- `bp_add` of an index that is free arms it. -/
theorem advance_add_armed {choice : BitVec 32} {caller : StartLoop}
    (still : bp.bpStopping = false) (index : choice ≠ -1) (inside : ¬ bp.bpCount ≤ choice.toInt)
    (free : bp.bpState choice.toNat ≠ .USING) :
    Start.advance random ⟨f, bp, running, drawn, .add choice caller⟩ =
      ⟨f, bp.arm choice.toNat, running, drawn, caller.next f.iParam⟩ := by
  simp only [Start.advance, still, Bool.false_eq_true, if_false, if_neg index, if_neg inside,
    if_neg free]

/-- A draw that comes to an armed entry is followed by another one. -/
theorem advance_pick_again {caller : StartLoop} {k : Int}
    (picked : Start.draw random ⟨f, bp, running, drawn, .pick caller⟩ = k)
    (used : bp.bpState k.toNat = .USING) :
    Start.advance random ⟨f, bp, running, drawn, .pick caller⟩ =
      ⟨f, bp, running, drawn + 1, .pick caller⟩ := by
  simp only [Start.advance, picked, if_pos used]

/-- A draw that comes to a free entry arms it. -/
theorem advance_pick_armed {caller : StartLoop} {k : Int}
    (picked : Start.draw random ⟨f, bp, running, drawn, .pick caller⟩ = k)
    (free : bp.bpState k.toNat ≠ .USING) :
    Start.advance random ⟨f, bp, running, drawn, .pick caller⟩ =
      ⟨f, bp.arm k.toNat, running, drawn + 1, caller.next f.iParam⟩ := by
  simp only [Start.advance, picked, if_neg free]

/-- The accesses of `bp_add`, when it is not left at once. -/
theorem indices_add {choice : BitVec 32} {caller : StartLoop} (still : bp.bpStopping = false) :
    Start.indices random ⟨f, bp, running, drawn, .add choice caller⟩ =
      if choice = -1 ∨ bp.bpCount ≤ choice.toInt then
        Start.usageIndices ⟨f, bp, running, drawn, .add choice caller⟩
      else
        Start.usageIndices ⟨f, bp, running, drawn, .add choice caller⟩ ++ [choice.toInt] := by
  simp only [Start.indices, still, Bool.false_eq_true, if_false]

end

/-! ## What is armed -/

/-- The entries that `bp_init` fills and `bp_add` can arm. -/
def Files.entries (f : Files) : Nat := f.uAddresscnt.toInt.toNat

/-- The multiples of a number are armed as far as a loop has come. -/
def Strided (state : Nat → BpState) (n stride i : Nat) : Prop :=
  ∀ j < n, state j = if stride ∣ j ∧ j < i then .USING else .UNUSED

/-- The state of a table of which so many entries are armed, or all of them if there are no more. -/
def Counted (state : Nat → BpState) (n k : Nat) : Prop :=
  (∀ j < n, state j ≠ .TRIGGERED) ∧ (List.range n).countP (state · = .USING) = min k n

/-- At first no multiple of a stride is armed. -/
theorem strided_zero {state : Nat → BpState} {n : Nat} (fresh : ∀ j < n, state j = .UNUSED)
    (stride : Nat) : Strided state n stride 0 := by
  intro j below
  rw [fresh j below, if_neg (by omega)]

/-- Arming the next multiple of a stride leaves the multiples so far armed. -/
theorem Strided.arm {state : Nat → BpState} {n stride i : Nat} (strided : Strided state n stride i)
    (positive : 0 < stride) (multiple : stride ∣ i) :
    Strided (Function.update state i .USING) n stride (i + stride) := by
  intro j below
  by_cases here : j = i
  · rw [here, Function.update_self, if_pos ⟨multiple, by omega⟩]
  · have same : (stride ∣ j ∧ j < i + stride) ↔ (stride ∣ j ∧ j < i) := by
      constructor
      · rintro ⟨divides, bound⟩
        refine ⟨divides, ?_⟩
        by_contra above
        have gap : stride ∣ j - i := Nat.dvd_sub divides multiple
        have size := Nat.le_of_dvd (by omega) gap
        omega
      · rintro ⟨divides, bound⟩
        exact ⟨divides, by omega⟩
    rw [Function.update_of_ne here, strided j below]
    simp only [same]

/-- Beyond the entries there is nothing to arm. -/
theorem Strided.beyond {state : Nat → BpState} {n stride i : Nat}
    (strided : Strided state n stride i) (outside : n ≤ i) {k : Nat} (later : n ≤ k) :
    Strided state n stride k := by
  intro j below
  rw [strided j below]
  congr 1
  rw [eq_iff_iff]
  constructor
  · exact fun ⟨divides, _⟩ => ⟨divides, by omega⟩
  · exact fun ⟨divides, _⟩ => ⟨divides, by omega⟩

/-- At first no entry is counted. -/
theorem counted_zero {state : Nat → BpState} {n : Nat} (fresh : ∀ j < n, state j = .UNUSED) :
    Counted state n 0 := by
  constructor
  · intro j below
    rw [fresh j below]
    decide
  · rw [Nat.zero_min, List.countP_eq_zero]
    intro j listed
    rw [fresh j (List.mem_range.mp listed)]
    decide

/-- Arming a free entry counts one more. -/
theorem Counted.arm {state : Nat → BpState} {n k i : Nat} (counted : Counted state n k)
    (below : i < n) (free : state i ≠ .USING) (room : k < n) :
    Counted (Function.update state i .USING) n (k + 1) := by
  constructor
  · intro j inside
    by_cases here : j = i
    · rw [here, Function.update_self]
      decide
    · rw [Function.update_of_ne here]
      exact counted.1 j inside
  · have changed := countP_range_update (fun v => decide (v = BpState.USING)) state .USING below
    have number := counted.2
    simp only [weight, free, decide_true, if_true, decide_false, Bool.false_eq_true, if_false]
      at changed
    omega

/-- When all entries are armed, any greater number is counted as well. -/
theorem Counted.full {state : Nat → BpState} {n k : Nat} (counted : Counted state n k)
    (full : (List.range n).countP (state · = .USING) = n) : Counted state n (k + 1) := by
  refine ⟨counted.1, ?_⟩
  have number := counted.2
  omega

/-! ## What holds at each place -/

/-- `start` has armed what it is asked for. -/
def Filled (f : Files) (state : Nat → BpState) : Prop :=
  if f.iParam.toInt = -1 then ∀ j < f.entries, state j = if j = 0 then .USING else .UNUSED
  else if Striding f.iParam then Strided state f.entries f.iParam.toInt.natAbs f.entries
  else Counted state f.entries f.iParam.toInt.toNat

/-- The invariant of the loop over a stride. -/
structure StrideHolds (f : Files) (bp : Bp) (i : BitVec 32) : Prop where
  running : bp.bpStopping = false
  striding : Striding f.iParam
  multiple : f.iParam.toInt.natAbs ∣ i.toNat
  armed : Strided bp.bpState f.entries f.iParam.toInt.natAbs i.toNat

/-- The invariant of the loop that counts. -/
structure CountHolds (f : Files) (bp : Bp) (i : BitVec 32) : Prop where
  running : bp.bpStopping = false
  several : f.iParam.toInt ≠ -1
  counting : ¬ Striding f.iParam
  bound : i.toNat ≤ f.iParam.toInt.toNat
  armed : Counted bp.bpState f.entries i.toNat

/-- What holds at a place. -/
def PcHolds (f : Files) (bp : Bp) : StartPc → Prop
  | .init i => i.toNat ≤ f.entries ∧ ∀ j < i.toNat, bp.bpState j = .UNUSED
  | .choose => bp.bpStopping = false ∧ ∀ j < f.entries, bp.bpState j = .UNUSED
  | .stride i => StrideHolds f bp i
  | .count i => CountHolds f bp i
  | .add choice .single =>
    choice = 0 ∧ bp.bpStopping = false ∧ f.iParam.toInt = -1 ∧
      ∀ j < f.entries, bp.bpState j = .UNUSED
  | .add choice (.stride i) => choice = i ∧ i < f.uAddresscnt ∧ StrideHolds f bp i
  | .add choice (.count i) => choice = -1 ∧ i.toInt < f.iParam.toInt ∧ CountHolds f bp i
  | .pick (.count i) =>
    i.toInt < f.iParam.toInt ∧ CountHolds f bp i ∧
      (List.range f.entries).countP (bp.bpState · = .USING) < f.entries
  | .pick _ | .fault => False
  | .finish | .done => Filled f bp.bpState

/-- What holds after every step. -/
structure StartInvariant (f : Files) (old : Bp) (c : Start) : Prop where
  files : c.pc ≠ .done → c.files = f
  count : c.bp.bpCount = f.uAddresscnt.toInt
  others : ∀ j, f.entries ≤ j → c.bp.bpState j = old.bpState j
  holds : PcHolds f c.bp c.pc

/-- The values with which `start` stays inside the tables. -/
def Bounded (f : Files) : Prop :=
  f.uAddresscnt.toNat ≤ N_ADDRESS ∨
    2 ^ 31 ≤ f.uAddresscnt.toNat ∧ f.iParam.toInt ≤ 0 ∧
      (Striding f.iParam → ∀ i, 2 ^ 31 ≤ i → i < f.uAddresscnt.toNat →
        ¬ f.iParam.toInt.natAbs ∣ i)

/-- The steps that are left, without those that draw again. -/
def startMeasure (f : Files) : StartPc → Nat
  | .init i => 3 * 2 ^ 32 + 4 + (f.entries - i.toNat)
  | .choose => 3 * 2 ^ 32 + 3
  | .stride i => 2 * (f.uAddresscnt.toNat - i.toNat) + 2
  | .count i => 3 * (f.iParam.toInt.toNat - i.toNat) + 2
  | .add _ .single => 2
  | .add _ (.stride i) => 2 * (f.uAddresscnt.toNat - i.toNat) + 1
  | .add _ (.count i) => 3 * (f.iParam.toInt.toNat - i.toNat) + 1
  | .pick (.count i) => 3 * (f.iParam.toInt.toNat - i.toNat)
  | .finish => 1
  | .pick _ | .done | .fault => 0

/-- What a step does that goes well. -/
structure StepHolds (random : Nat → BitVec 32) (f : Files) (old : Bp) (c : Start) : Prop where
  inside : ∀ i ∈ c.indices random, InTable i
  keeps : StartInvariant f old (c.advance random)
  progress : c.pc = .done ∨ startMeasure f (c.advance random).pc < startMeasure f c.pc ∨
    (∃ caller, c.pc = .pick caller) ∧
      startMeasure f (c.advance random).pc = startMeasure f c.pc

/-! ## One step -/

variable {random : Nat → BitVec 32} {f : Files} {old : Bp}

/-- A step that goes well and brings the run nearer to its end. -/
theorem StepHolds.of_advance {c c' : Start} (taken : c.advance random = c')
    (inside : ∀ i ∈ c.indices random, InTable i) (keeps : StartInvariant f old c')
    (less : startMeasure f c'.pc < startMeasure f c.pc) : StepHolds random f old c := by
  rw [← taken] at keeps less
  exact ⟨inside, keeps, .inr (.inl less)⟩

/-- A step without an access goes well if it keeps the invariant and comes nearer to the end. -/
theorem StepHolds.of_quiet {c c' : Start} (taken : c.advance random = c')
    (quiet : c.indices random = []) (keeps : StartInvariant f old c')
    (less : startMeasure f c'.pc < startMeasure f c.pc) : StepHolds random f old c := by
  refine .of_advance taken (fun i touched => ?_) keeps less
  rw [quiet] at touched
  exact absurd touched List.not_mem_nil

/-- There are as many entries as the count says, or none if the count is negative as an `int`. -/
theorem entries_cases (f : Files) :
    f.uAddresscnt.toNat < 2 ^ 31 ∧ f.entries = f.uAddresscnt.toNat ∨
      2 ^ 31 ≤ f.uAddresscnt.toNat ∧ f.entries = 0 := by
  have small := f.uAddresscnt.isLt
  have signed := toInt_cases f.uAddresscnt
  rw [Files.entries]
  omega

/-- Within the bounds there are no more entries than the tables have. -/
theorem entries_le (bounded : Bounded f) : f.entries ≤ N_ADDRESS := by
  have number := entries_cases f
  rcases bounded with few | ⟨negative, -⟩
  · omega
  · omega

/-- A step of the loop of `bp_init` goes well. -/
theorem StepHolds.init {bp : Bp} {running : Bool} {drawn : Nat} {i : BitVec 32}
    (bounded : Bounded f) (inv : StartInvariant f old ⟨f, bp, running, drawn, .init i⟩) :
    StepHolds random f old ⟨f, bp, running, drawn, .init i⟩ := by
  have few := entries_le bounded
  have number := entries_cases f
  have signed := toInt_cases i
  have size := toInt_cases f.uAddresscnt
  have le : i.toNat ≤ f.entries := inv.holds.1
  have filled : ∀ j < i.toNat, bp.bpState j = .UNUSED := inv.holds.2
  by_cases below : i.toInt < f.uAddresscnt.toInt
  · have next : (i + 1).toNat = i.toNat + 1 :=
      toNat_succ (show i.toNat < f.uAddresscnt.toInt.toNat by omega)
    have inside : i.toNat < f.entries := by omega
    refine .of_advance (advance_init random below) ?_ ⟨fun _ => rfl, inv.count, ?_, ?_⟩ ?_
    · intro k touched
      simp only [Start.indices, if_pos below, List.mem_singleton] at touched
      rw [touched, InTable]
      omega
    · intro j beyond
      show Function.update bp.bpState i.toNat .UNUSED j = old.bpState j
      rw [Function.update_of_ne (by omega)]
      exact inv.others j beyond
    · show (i + 1).toNat ≤ f.entries ∧
        ∀ j < (i + 1).toNat, Function.update bp.bpState i.toNat .UNUSED j = .UNUSED
      rw [next]
      refine ⟨inside, fun j before => ?_⟩
      by_cases here : j = i.toNat
      · rw [here, Function.update_self]
      · rw [Function.update_of_ne here]
        exact filled j (by omega)
    · simp only [startMeasure]
      omega
  · refine .of_quiet (advance_init_end random below) (if_neg below)
      ⟨fun _ => rfl, inv.count, inv.others, rfl, fun j inside => filled j ?_⟩ ?_
    · omega
    · simp only [startMeasure]
      omega

/-- The tests of `i_param` go well. -/
theorem StepHolds.choose {bp : Bp} {running : Bool} {drawn : Nat}
    (inv : StartInvariant f old ⟨f, bp, running, drawn, .choose⟩) :
    StepHolds random f old ⟨f, bp, running, drawn, .choose⟩ := by
  have still : bp.bpStopping = false := inv.holds.1
  have fresh : ∀ j < f.entries, bp.bpState j = .UNUSED := inv.holds.2
  have number := entries_cases f
  have size := f.uAddresscnt.isLt
  have bound := toInt_cases f.iParam
  by_cases single : f.iParam.toInt = -1
  · have taken := @advance_choose_single random f bp running drawn single
    by_cases some_entry : 0 < f.uAddresscnt
    · rw [if_pos some_entry] at taken
      refine .of_quiet taken rfl
        ⟨fun _ => rfl, inv.count, inv.others, rfl, still, single, fresh⟩ ?_
      simp only [startMeasure]
      omega
    · rw [if_neg some_entry] at taken
      refine .of_quiet taken rfl ⟨fun _ => rfl, inv.count, inv.others, ?_⟩ ?_
      · have zero : (0 : BitVec 32).toNat = 0 := rfl
        rw [BitVec.lt_def] at some_entry
        show Filled f bp.bpState
        rw [Filled, if_pos single]
        intro j below
        omega
      · simp only [startMeasure]
        omega
  · by_cases striding : Striding f.iParam
    · refine .of_quiet (advance_choose_stride random striding) rfl
        ⟨fun _ => rfl, inv.count, inv.others, still, striding, Nat.dvd_zero _,
          strided_zero fresh _⟩ ?_
      simp only [startMeasure]
      omega
    · refine .of_quiet (advance_choose_count random single striding) rfl
        ⟨fun _ => rfl, inv.count, inv.others, still, single, striding, Nat.zero_le _,
          counted_zero fresh⟩ ?_
      simp only [startMeasure]
      omega

/-- The test of the loop over a stride goes well. -/
theorem StepHolds.stride {bp : Bp} {running : Bool} {drawn : Nat} {i : BitVec 32}
    (inv : StartInvariant f old ⟨f, bp, running, drawn, .stride i⟩) :
    StepHolds random f old ⟨f, bp, running, drawn, .stride i⟩ := by
  have here : StrideHolds f bp i := inv.holds
  have taken := @advance_stride random f bp running drawn i
  by_cases below : i < f.uAddresscnt
  · rw [if_pos below] at taken
    refine .of_quiet taken rfl ⟨fun _ => rfl, inv.count, inv.others, rfl, below, here⟩ ?_
    simp only [startMeasure]
    omega
  · rw [if_neg below] at taken
    refine .of_quiet taken rfl ⟨fun _ => rfl, inv.count, inv.others, ?_⟩ ?_
    · have number := entries_cases f
      have several : f.iParam.toInt ≠ -1 := by
        have range := here.striding.2
        omega
      rw [BitVec.lt_def] at below
      show Filled f bp.bpState
      rw [Filled, if_neg several, if_pos here.striding]
      exact here.armed.beyond (by omega) (Nat.le_refl _)
    · simp only [startMeasure]
      omega

/-- The test of the loop that counts goes well. -/
theorem StepHolds.count {bp : Bp} {running : Bool} {drawn : Nat} {i : BitVec 32}
    (inv : StartInvariant f old ⟨f, bp, running, drawn, .count i⟩) :
    StepHolds random f old ⟨f, bp, running, drawn, .count i⟩ := by
  have here : CountHolds f bp i := inv.holds
  have taken := @advance_count random f bp running drawn i
  by_cases below : i.toInt < f.iParam.toInt
  · rw [if_pos below] at taken
    refine .of_quiet taken rfl ⟨fun _ => rfl, inv.count, inv.others, rfl, below, here⟩ ?_
    simp only [startMeasure]
    omega
  · rw [if_neg below] at taken
    refine .of_quiet taken rfl ⟨fun _ => rfl, inv.count, inv.others, ?_⟩ ?_
    · have signed := toInt_cases i
      have bound := toInt_cases f.iParam
      have le := here.bound
      have last : i.toNat = f.iParam.toInt.toNat := by omega
      show Filled f bp.bpState
      rw [Filled, if_neg here.several, if_neg here.counting, ← last]
      exact here.armed
    · simp only [startMeasure]
      omega

/-- The indices of `bp_usage_count` are in the tables. -/
theorem inTable_usageIndices (bounded : Bounded f) {c : Start}
    (count : c.bp.bpCount = f.uAddresscnt.toInt) : ∀ i ∈ c.usageIndices, InTable i := by
  have few := entries_le bounded
  intro i touched
  rw [Start.usageIndices, List.mem_map] at touched
  obtain ⟨j, listed, rfl⟩ := touched
  have below := List.mem_range.mp listed
  rw [count, ← Files.entries] at below
  rw [InTable, Int.ofNat_eq_natCast]
  omega

/-- `bp_add` of an index that is not negative. -/
theorem StepHolds.addIndex {bp : Bp} {running : Bool} {drawn : Nat} {choice : BitVec 32}
    {caller : StartLoop} (bounded : Bounded f)
    (inv : StartInvariant f old ⟨f, bp, running, drawn, .add choice caller⟩)
    (still : bp.bpStopping = false) (low : choice.toNat < 2 ^ 31)
    (outside : f.entries ≤ choice.toNat → PcHolds f bp (caller.next f.iParam))
    (free : choice.toNat < f.entries → bp.bpState choice.toNat ≠ .USING)
    (armed : choice.toNat < f.entries → PcHolds f (bp.arm choice.toNat) (caller.next f.iParam))
    (less : startMeasure f (caller.next f.iParam) < startMeasure f (.add choice caller)) :
    StepHolds random f old ⟨f, bp, running, drawn, .add choice caller⟩ := by
  have usage : ∀ i ∈ Start.usageIndices ⟨f, bp, running, drawn, .add choice caller⟩, InTable i :=
    inTable_usageIndices bounded inv.count
  have count : bp.bpCount = f.uAddresscnt.toInt := inv.count
  have few := entries_le bounded
  have number := entries_cases f
  have signed := toInt_cases choice
  have size := toInt_cases f.uAddresscnt
  have index : choice ≠ -1 := by
    intro same
    rw [same] at low
    exact absurd low (by decide)
  have touched := @indices_add random f bp running drawn choice caller still
  by_cases beyond : bp.bpCount ≤ choice.toInt
  · rw [if_pos (.inr beyond)] at touched
    refine .of_advance (advance_add_refused random still index (.inl beyond)) ?_
      ⟨fun _ => inv.files StartPc.noConfusion, inv.count, inv.others, outside (by omega)⟩ less
    rw [touched]
    exact usage
  · have inside : choice.toNat < f.entries := by omega
    rw [if_neg fun either => either.elim index beyond] at touched
    refine .of_advance (advance_add_armed random still index beyond (free inside)) ?_
      ⟨fun _ => inv.files StartPc.noConfusion, inv.count, fun j later => ?_, armed inside⟩ less
    · rw [touched]
      intro k member
      rcases List.mem_append.mp member with counted | chosen
      · exact usage k counted
      · rw [List.mem_singleton.mp chosen, InTable]
        omega
    · show Function.update bp.bpState choice.toNat .USING j = old.bpState j
      rw [Function.update_of_ne (by omega)]
      exact inv.others j later

/-- The call `bp_add (0)` goes well. -/
theorem StepHolds.addSingle {bp : Bp} {running : Bool} {drawn : Nat} {choice : BitVec 32}
    (bounded : Bounded f)
    (inv : StartInvariant f old ⟨f, bp, running, drawn, .add choice .single⟩) :
    StepHolds random f old ⟨f, bp, running, drawn, .add choice .single⟩ := by
  have still : bp.bpStopping = false := inv.holds.2.1
  have single : f.iParam.toInt = -1 := inv.holds.2.2.1
  have fresh : ∀ j < f.entries, bp.bpState j = .UNUSED := inv.holds.2.2.2
  obtain rfl : choice = 0 := inv.holds.1
  have place : (0 : BitVec 32).toNat = 0 := rfl
  refine .addIndex bounded inv still (by decide) (fun outside => ?_) (fun inside => ?_)
    (fun inside => ?_) (Nat.lt_succ_self 1)
  · show Filled f bp.bpState
    rw [Filled, if_pos single]
    intro j below
    omega
  · rw [fresh _ inside]
    decide
  · show Filled f (Function.update bp.bpState (0 : BitVec 32).toNat .USING)
    rw [Filled, if_pos single, place]
    intro j below
    by_cases first : j = 0
    · rw [first, Function.update_self, if_pos rfl]
    · rw [Function.update_of_ne first, if_neg first]
      exact fresh j below

/-- The call `bp_add (i)` of the loop over a stride goes well. -/
theorem StepHolds.addStride {bp : Bp} {running : Bool} {drawn : Nat} {choice i : BitVec 32}
    (bounded : Bounded f)
    (inv : StartInvariant f old ⟨f, bp, running, drawn, .add choice (.stride i)⟩) :
    StepHolds random f old ⟨f, bp, running, drawn, .add choice (.stride i)⟩ := by
  have below : i < f.uAddresscnt := inv.holds.2.1
  have here : StrideHolds f bp i := inv.holds.2.2
  obtain rfl : choice = i := inv.holds.1
  have range := here.striding
  rw [BitVec.lt_def] at below
  have low : choice.toNat < 2 ^ 31 := by
    rcases bounded with within | ⟨-, -, apart⟩
    · simp only [N_ADDRESS] at within
      omega
    · by_contra high
      exact apart here.striding choice.toNat (by omega) below here.multiple
  have next := toNat_sub_of_striding here.striding low
  rw [Striding] at range
  have further : f.iParam.toInt.natAbs ∣ (choice - f.iParam).toNat := by
    rw [next]
    exact Nat.dvd_add here.multiple (Nat.dvd_refl _)
  refine .addIndex bounded inv here.running low (fun outside => ?_) (fun inside => ?_)
    (fun inside => ?_) ?_
  · exact ⟨here.running, here.striding, further, here.armed.beyond outside (by omega)⟩
  · rw [here.armed choice.toNat inside, if_neg (by omega)]
    decide
  · refine ⟨here.running, here.striding, further, ?_⟩
    rw [next]
    exact here.armed.arm (by omega) here.multiple
  · simp only [StartLoop.next, startMeasure]
    omega

/-- The loop that counts is not entered with a negative count. -/
theorem few_of_counting (bounded : Bounded f) {i : BitVec 32} (below : i.toInt < f.iParam.toInt)
    (bound : i.toNat ≤ f.iParam.toInt.toNat) :
    f.uAddresscnt.toNat ≤ N_ADDRESS ∧ (i + 1).toNat = i.toNat + 1 ∧
      i.toNat < f.iParam.toInt.toNat := by
  have signed := toInt_cases i
  have size := toInt_cases f.iParam
  have less : i.toNat < f.iParam.toInt.toNat := by omega
  refine ⟨?_, toNat_succ less, less⟩
  rcases bounded with few | ⟨-, negative, -⟩
  · exact few
  · omega

/-- A call of `bp_add` in the loop that counts goes well. -/
theorem StepHolds.addCount {bp : Bp} {running : Bool} {drawn : Nat} {choice i : BitVec 32}
    (bounded : Bounded f)
    (inv : StartInvariant f old ⟨f, bp, running, drawn, .add choice (.count i)⟩) :
    StepHolds random f old ⟨f, bp, running, drawn, .add choice (.count i)⟩ := by
  have usage : ∀ k ∈ Start.usageIndices ⟨f, bp, running, drawn, .add choice (.count i)⟩,
      InTable k := inTable_usageIndices bounded inv.count
  have count : bp.bpCount = f.uAddresscnt.toInt := inv.count
  have below : i.toInt < f.iParam.toInt := inv.holds.2.1
  have here : CountHolds f bp i := inv.holds.2.2
  obtain rfl : choice = -1 := inv.holds.1
  obtain ⟨few, next, less⟩ := few_of_counting bounded below here.bound
  have number := entries_cases f
  have size := toInt_cases f.uAddresscnt
  simp only [N_ADDRESS] at few
  have entries : bp.bpCount.toNat = f.entries := by rw [count, Files.entries]
  have usageCount : bp.bpUsageCount =
      ((List.range f.entries).countP (bp.bpState · = .USING) : Nat) := by
    rw [Bp.bpUsageCount, entries]
  have inside : ∀ k ∈ Start.indices random ⟨f, bp, running, drawn, .add (-1) (.count i)⟩,
      InTable k := by
    rw [indices_add random here.running, if_pos (.inl rfl)]
    exact usage
  have taken := @advance_add_random random f bp running drawn (.count i) here.running
  by_cases full : bp.bpUsageCount = bp.bpCount
  · rw [if_pos full] at taken
    refine .of_advance taken inside ⟨fun _ => rfl, inv.count, inv.others, here.running,
      here.several, here.counting, ?_, ?_⟩ ?_
    · omega
    · rw [next]
      exact here.armed.full (by omega)
    · simp only [StartLoop.next, startMeasure]
      omega
  · rw [if_neg full] at taken
    refine .of_advance taken inside ⟨fun _ => rfl, inv.count, inv.others, below, here, ?_⟩ ?_
    · have most : (List.range f.entries).countP (bp.bpState · = .USING) ≤ f.entries :=
        List.countP_le_length.trans (Nat.le_of_eq List.length_range)
      show (List.range f.entries).countP (bp.bpState · = .USING) < f.entries
      omega
    · simp only [startMeasure]
      omega

/-- An entry that is drawn from some is one of them. -/
theorem draw_bounds {c : Start} (count : c.bp.bpCount = f.uAddresscnt.toInt)
    (some_entry : 0 < f.entries) : 0 ≤ c.draw random ∧ c.draw random < f.entries := by
  have number := entries_cases f
  have signed := toInt_cases (random c.drawn % f.uAddresscnt)
  have remainder : (random c.drawn % f.uAddresscnt).toNat < f.uAddresscnt.toNat := by
    rw [BitVec.toNat_umod]
    exact Nat.mod_lt _ (by omega)
  rw [Start.draw, count, BitVec.ofInt_toInt]
  omega

/-- A call of `random32` goes well. -/
theorem StepHolds.pick {bp : Bp} {running : Bool} {drawn : Nat} {i : BitVec 32}
    (bounded : Bounded f)
    (inv : StartInvariant f old ⟨f, bp, running, drawn, .pick (.count i)⟩) :
    StepHolds random f old ⟨f, bp, running, drawn, .pick (.count i)⟩ := by
  have count : bp.bpCount = f.uAddresscnt.toInt := inv.count
  have below : i.toInt < f.iParam.toInt := inv.holds.1
  have here : CountHolds f bp i := inv.holds.2.1
  have room : (List.range f.entries).countP (bp.bpState · = .USING) < f.entries := inv.holds.2.2
  obtain ⟨few, next, less⟩ := few_of_counting bounded below here.bound
  have number := entries_cases f
  have size := toInt_cases f.uAddresscnt
  simp only [N_ADDRESS] at few
  have drawnBelow : 0 ≤ Start.draw random ⟨f, bp, running, drawn, .pick (.count i)⟩ ∧
      Start.draw random ⟨f, bp, running, drawn, .pick (.count i)⟩ < f.entries :=
    draw_bounds inv.count (by omega)
  generalize picked : Start.draw random ⟨f, bp, running, drawn, .pick (.count i)⟩ = k
    at drawnBelow
  have inside : ∀ j ∈ Start.indices random ⟨f, bp, running, drawn, .pick (.count i)⟩,
      InTable j := by
    intro j touched
    simp only [Start.indices, picked, List.mem_singleton] at touched
    rw [touched, InTable, N_ADDRESS]
    omega
  by_cases used : bp.bpState k.toNat = .USING
  · have taken := advance_pick_again random picked used
    refine ⟨inside, ?_, .inr (.inr ⟨⟨_, rfl⟩, ?_⟩)⟩
    · rw [taken]
      exact ⟨fun _ => rfl, inv.count, inv.others, below, here, room⟩
    · rw [taken]
  · refine .of_advance (advance_pick_armed random picked used) inside
      ⟨fun _ => rfl, inv.count, fun j beyond => ?_, here.running, here.several, here.counting,
        ?_, ?_⟩ ?_
    · show Function.update bp.bpState k.toNat .USING j = old.bpState j
      rw [Function.update_of_ne (by omega)]
      exact inv.others j beyond
    · omega
    · have armed := here.armed.2
      rw [next]
      exact here.armed.arm (by omega) used (by omega)
    · simp only [StartLoop.next, startMeasure]
      omega

/-- Every step of `start` from a state with its invariant goes well. -/
theorem StartInvariant.stepHolds (bounded : Bounded f) {c : Start} (inv : StartInvariant f old c) :
    StepHolds random f old c := by
  obtain ⟨files, bp, running, drawn, pc⟩ := c
  by_cases returned : pc = .done
  · subst returned
    exact ⟨fun i touched => absurd touched List.not_mem_nil, inv, .inl rfl⟩
  · obtain rfl : files = f := inv.files returned
    cases pc with
    | init i => exact .init bounded inv
    | choose => exact .choose inv
    | stride i => exact .stride inv
    | count i => exact .count inv
    | add choice caller =>
      cases caller with
      | single => exact .addSingle bounded inv
      | stride i => exact .addStride bounded inv
      | count i => exact .addCount bounded inv
    | pick caller =>
      cases caller with
      | single => exact inv.holds.elim
      | stride i => exact inv.holds.elim
      | count i => exact .pick bounded inv
    | finish =>
      refine ⟨fun i touched => absurd touched List.not_mem_nil, ?_, .inr (.inl Nat.zero_lt_one)⟩
      exact ⟨fun other => absurd rfl other, inv.count, inv.others, inv.holds⟩
    | done => exact absurd rfl returned
    | fault => exact inv.holds.elim

/-! ## Every run -/

/-- The run has come to the return of `start` in this state. -/
def ReturnsTo (random : Nat → BitVec 32) (c c' : Start) : Prop :=
  c'.pc = .done ∧ Reaches (Start.step random) c c'

/-- A loop of `bp_add` draws used entries without end. -/
def PicksForever (random : Nat → BitVec 32) (c : Start) : Prop :=
  ∃ k, ∀ m, k ≤ m → ∃ caller, ((Start.step random)^[m] c).pc = .pick caller

/-- A step that goes well does not fault. -/
theorem StepHolds.step_eq {c : Start} (good : StepHolds random f old c) :
    c.step random = c.advance random := if_pos good.inside

/-- The invariant of `start` holds at its beginning. -/
theorem startInvariant_starting (f : Files) (bp : Bp) : StartInvariant f bp (starting f bp) := by
  refine ⟨fun _ => rfl, rfl, fun _ _ => rfl, Nat.zero_le _, fun j before => ?_⟩
  exact absurd before (Nat.not_lt_zero j)

/-- Every step of `start` keeps its invariant. -/
theorem StartInvariant.step (bounded : Bounded f) {c : Start} (inv : StartInvariant f old c) :
    StartInvariant f old (c.step random) := by
  have good : StepHolds random f old c := inv.stepHolds bounded
  rw [good.step_eq]
  exact good.keeps

/-- Within the bounds `start` returns, or it draws used entries without end. -/
theorem returns_or_picksForever (bounded : Bounded f) (bp : Bp) (random : Nat → BitVec 32) :
    (∃ c, ReturnsTo random (starting f bp) c) ∨ PicksForever random (starting f bp) := by
  have either := @ends_or_waits Start (Start.step random) (StartInvariant f bp)
    (fun c => c.pc = .done) (fun c => ∃ caller, c.pc = .pick caller)
    (fun c => startMeasure f c.pc) (fun c inv => inv.step bounded)
    (fun c inv => by
      have good : StepHolds random f bp c := inv.stepHolds bounded
      rw [good.step_eq]
      exact good.progress)
    (starting f bp) (startInvariant_starting f bp)
  rcases either with ⟨k, last⟩ | forever
  · exact .inl ⟨_, last, k, rfl⟩
  · exact .inr forever

/-- When `start` has returned, the table is filled from the files and the requested entries are
armed. -/
theorem filled_of_returnsTo (bounded : Bounded f) {bp : Bp} {c : Start}
    (returns : ReturnsTo random (starting f bp) c) :
    Filled f c.bp.bpState ∧ ∀ j, f.entries ≤ j → c.bp.bpState j = bp.bpState j := by
  have inv : StartInvariant f bp c :=
    returns.2.invariant (fun c inv => inv.step bounded) (startInvariant_starting f bp)
  have holds := inv.holds
  rw [returns.1] at holds
  exact ⟨holds, inv.others⟩

/-! ## What is asked for -/

/-- The entries below a bound that are armed. -/
def armedBelow (bp : Bp) (n : Nat) : Set Nat := {i | i < n ∧ bp.bpState i = .USING}

/-- What a list of `n` addresses and a parameter ask for. -/
def Requested (n : Nat) (p : Int) (armed : Set Nat) : Prop :=
  if p = -1 then armed = {0} ∩ {i | i < n}
  else if -65536 ≤ p ∧ p ≤ -2 then armed = {i | i < n ∧ p.natAbs ∣ i}
  else if 0 ≤ p then armed ⊆ {i | i < n} ∧ armed.ncard = min p.toNat n
  else armed = ∅

/-- The number of armed entries is the number of those that are found in use. -/
theorem ncard_armedBelow (bp : Bp) (n : Nat) :
    (armedBelow bp n).ncard = (List.range n).countP (bp.bpState · = .USING) := by
  have finite : armedBelow bp n =
      ↑((Finset.range n).filter fun i => bp.bpState i = .USING) := by
    ext i
    simp [armedBelow]
  rw [finite, Set.ncard_coe_finset, List.countP_eq_length_filter]
  rfl

/-- A table that is filled is as requested. -/
theorem Filled.requested {bp : Bp} (filled : Filled f bp.bpState) :
    Requested f.entries f.iParam.toInt (armedBelow bp f.entries) ∧
      ∀ i < f.entries, bp.bpState i ≠ .TRIGGERED := by
  rw [Filled] at filled
  rw [Requested]
  by_cases single : f.iParam.toInt = -1
  · rw [if_pos single] at filled ⊢
    constructor
    · ext i
      show (i < f.entries ∧ bp.bpState i = .USING) ↔ i = 0 ∧ i < f.entries
      constructor
      · intro ⟨below, used⟩
        rw [filled i below] at used
        by_contra other
        rw [if_neg fun first => other ⟨first, below⟩] at used
        exact absurd used (by decide)
      · intro ⟨first, below⟩
        rw [filled i below, if_pos first]
        exact ⟨below, rfl⟩
    · intro i below
      rw [filled i below]
      split <;> decide
  · rw [if_neg single] at filled ⊢
    by_cases striding : Striding f.iParam
    · rw [if_pos striding] at filled
      rw [if_pos (show -65536 ≤ f.iParam.toInt ∧ f.iParam.toInt ≤ -2 from striding)]
      constructor
      · ext i
        show (i < f.entries ∧ bp.bpState i = .USING) ↔
          i < f.entries ∧ f.iParam.toInt.natAbs ∣ i
        refine and_congr_right fun below => ?_
        rw [filled i below]
        by_cases divides : f.iParam.toInt.natAbs ∣ i
        · simp [divides, below]
        · simp [divides]
      · intro i below
        rw [filled i below]
        split <;> decide
    · rw [if_neg striding] at filled
      rw [if_neg (show ¬ (-65536 ≤ f.iParam.toInt ∧ f.iParam.toInt ≤ -2) from striding)]
      refine ⟨?_, filled.1⟩
      have number := ncard_armedBelow bp f.entries
      rw [filled.2] at number
      by_cases positive : 0 ≤ f.iParam.toInt
      · rw [if_pos positive]
        exact ⟨fun i armed => armed.1, number⟩
      · rw [if_neg positive]
        rw [Int.toNat_of_nonpos (by omega), Nat.zero_min] at number
        have finite : (armedBelow bp f.entries).Finite :=
          (Set.finite_lt_nat f.entries).subset fun i armed => armed.1
        exact (Set.ncard_eq_zero finite).mp number

/-- A run that returns does not draw without end. -/
theorem not_picksForever_of_returnsTo {c c' : Start} (returns : ReturnsTo random c c') :
    ¬ PicksForever random c := by
  obtain ⟨last, k, rfl⟩ := returns
  rintro ⟨j, forever⟩
  obtain ⟨caller, picks⟩ := forever (max j k) (Nat.le_max_left j k)
  have fixed : Start.step random ((Start.step random)^[k] c) = (Start.step random)^[k] c := by
    simp [Start.step, Start.indices, Start.advance, last]
  rw [iterate_of_le fixed (Nat.le_max_right j k), last] at picks
  exact StartPc.noConfusion picks

/-- `start` arms what it is asked for: whatever the tables held, the entries of the list are armed
as requested or unused, and those beyond it stay; so in a table that held no armed entry exactly
the requested ones are armed, and the others are unused. -/
theorem start_arms_requested (f : Files) (few : f.uAddresscnt.toNat ≤ N_ADDRESS) (bp : Bp)
    (random : Nat → BitVec 32) (ends : ¬ PicksForever random (starting f bp)) :
    (∃ c, ReturnsTo random (starting f bp) c) ∧
      ∀ c, ReturnsTo random (starting f bp) c →
        Requested f.uAddresscnt.toNat f.iParam.toInt (armedBelow c.bp f.uAddresscnt.toNat) ∧
        (∀ i < f.uAddresscnt.toNat, c.bp.bpState i = .USING ∨ c.bp.bpState i = .UNUSED) ∧
        (∀ i, f.uAddresscnt.toNat ≤ i → c.bp.bpState i = bp.bpState i) ∧
        ((∀ i, bp.bpState i = .UNUSED) →
          Requested f.uAddresscnt.toNat f.iParam.toInt {i | c.bp.bpState i = .USING} ∧
            ∀ i, c.bp.bpState i = .USING ∨ c.bp.bpState i = .UNUSED) := by
  have bounded : Bounded f := .inl few
  have number := entries_cases f
  simp only [N_ADDRESS] at few
  have same : f.entries = f.uAddresscnt.toNat := by omega
  refine ⟨(returns_or_picksForever bounded bp random).resolve_right ends, fun c returns => ?_⟩
  obtain ⟨filled, others⟩ := filled_of_returnsTo bounded returns
  obtain ⟨requested, states⟩ := filled.requested
  rw [same] at requested states others
  have each : ∀ i < f.uAddresscnt.toNat,
      c.bp.bpState i = .USING ∨ c.bp.bpState i = .UNUSED := by
    intro i below
    have never := states i below
    cases value : c.bp.bpState i with
    | UNUSED => exact .inr rfl
    | USING => exact .inl rfl
    | TRIGGERED => exact absurd value never
  refine ⟨requested, each, others, fun stopped => ?_⟩
  have beyond : ∀ i, f.uAddresscnt.toNat ≤ i → c.bp.bpState i = .UNUSED :=
    fun i outside => (others i outside).trans (stopped i)
  have whole : {i | c.bp.bpState i = .USING} = armedBelow c.bp f.uAddresscnt.toNat := by
    ext i
    constructor
    · intro armed
      have used : c.bp.bpState i = .USING := armed
      refine ⟨?_, used⟩
      by_contra outside
      rw [beyond i (by omega)] at used
      exact absurd used (by decide)
    · exact fun armed => armed.2
  rw [whole]
  refine ⟨requested, fun i => ?_⟩
  by_cases below : i < f.uAddresscnt.toNat
  · exact each i below
  · exact .inr (beyond i (by omega))

/-- Three addresses, two of which are to be armed at random. -/
def twoOfThree : Files where
  address _ := 0
  uAddresscnt := 3
  iParam := 2

/-- Two draws are enough for `start` to arm two of three entries. -/
theorem start_arms_requested_two :
    ∃ c, ReturnsTo (BitVec.ofNat 32) (starting twoOfThree (.loaded noops)) c ∧
      Requested 3 2 {i | c.bp.bpState i = .USING} := by
  have returns : ReturnsTo (BitVec.ofNat 32) (starting twoOfThree (.loaded noops))
      ((Start.step (BitVec.ofNat 32))^[13] (starting twoOfThree (.loaded noops))) :=
    ⟨by decide, 13, rfl⟩
  exact ⟨_, returns, ((start_arms_requested twoOfThree (by decide) (.loaded noops)
    (BitVec.ofNat 32) (not_picksForever_of_returnsTo returns)).2 _ returns).2.2.2
      (fun _ => rfl) |>.1⟩

end Drddr
