import Drddr.Int3.Trampoline
import Drddr.Machine.Interrupt

/-!
# Interrupts on the way back

The assembly of `int3_actual_work` moves the stack pointer to the top of the frame before it has
read the whole frame. From there on an interrupt may write over what is still to be read.
-/

namespace Drddr

open Machine

/-- The registers that are loaded before the stack pointer moves. -/
def restored : List (Nat × Reg) :=
  [(0x38, .rbx), (0x40, .r11), (0x48, .r10), (0x50, .r9), (0x58, .r8), (0x68, .rcx), (0x70, .rdx),
    (0x78, .rsi), (0x80, .rdi)]

/-- The first boundary after the move, numbered from the entry of `int3_actual_work`. -/
abbrev moved : Nat := 14

/-! ## Up to the move -/

section
variable {callee : Cpu → Cpu} {room : Nat} {b : Word}

/-- The frame is on the stack in use as long as the stack pointer is at it. -/
theorem frame_onStack (fits : room + 192 ≤ 2 ^ 64) {i : Nat} (inside : i < 184) :
    OnStack b (b + BitVec.ofNat 64 (184 + room)) (b + BitVec.ofNat 64 i) := by
  have place : OnStack (b + BitVec.ofNat 64 0) (b + BitVec.ofNat 64 (184 + room))
      (b + BitVec.ofNat 64 i) ↔ 0 ≤ i ∧ i < 184 + room :=
    onStack_iff b (by omega) (by omega) (by omega)
  rw [BitVec.add_zero] at place
  exact place.mpr (by omega)

/-- The pushed word is the bottom of the frame; the rest of it was on the stack before. -/
theorem pushed_bytes (fits : room + 192 ≤ 2 ^ 64) (w : Overwrite) (m : Memory) (bp : Word) :
    (m.write b 8 bp).SameBytes
      ((m.interrupted (b + 8) (b + BitVec.ofNat 64 (184 + room)) w).write b 8 bp) b b 184 := by
  intro i hi
  have distance : offset b (b + BitVec.ofNat 64 i) = i := offset_add _ _ (by omega)
  by_cases word : i < 8
  · rw [Memory.write_of_lt _ _ _ _ (by omega), Memory.write_of_lt _ _ _ _ (by omega)]
  · have place : OnStack (b + BitVec.ofNat 64 8) (b + BitVec.ofNat 64 (184 + room))
        (b + BitVec.ofNat 64 i) ↔ 8 ≤ i ∧ i < 184 + room :=
      onStack_iff b (by omega) (by omega) (by omega)
    have on : OnStack (b + 8) (b + BitVec.ofNat 64 (184 + room)) (b + BitVec.ofNat 64 i) :=
      place.mpr (by omega)
    rw [Memory.write_of_le _ _ _ _ (by omega), Memory.write_of_le _ _ _ _ (by omega),
      Memory.interrupted_of_onStack on]

/-- A call from the frame returns to it. -/
theorem called_at (obeys : CallingConvention (room + 184) callee) (back : Word) {F : Memory}
    {c : Cpu} (here : c.At F b b 184) : (callee (c.pushed back)).At F b b 184 := by
  have called : (c.pushed back).gpr .rsp + 8 = b := by
    rw [Cpu.pushed_rsp, here.rsp, BitVec.sub_add_cancel]
  refine ⟨?_, ?_, fun i hi => ?_⟩
  · rw [obeys.saved _ .rbp (by decide), Cpu.pushed_of_ne _ _ (by decide), here.base]
  · rw [obeys.rsp, called]
  · have kept := obeys.frame (c.pushed back) i (by omega)
    have above : 8 ≤ offset (b - 8) (b + BitVec.ofNat 64 i) := by
      have distance : offset (b - 8) (b + BitVec.ofNat 64 i) = 8 + i :=
        offset_sub_add b 8 (by omega)
      omega
    rw [called] at kept
    rw [kept, Cpu.pushed_mem, here.rsp, Memory.write_of_le _ _ _ _ above]
    exact here.bytes i hi

/-- `int3_real_work` returns to the frame that it was called on. -/
theorem callRealWork_at (obeys : CallingConvention (room + 184) callee)
    (fits : room + 192 ≤ 2 ^ 64) (w : Nat → Overwrite) (back : Word) {c : Cpu}
    (sp : c.gpr .rsp = b + 8) :
    (execInterrupted callee (b + BitVec.ofNat 64 (184 + room)) w 0 (callRealWork back) c).At
      (c.mem.write b 8 (c.gpr .rbp)) b b 184 := by
  let top := b + BitVec.ofNat 64 (184 + room)
  have on (i : Nat) (inside : i < 184) : OnStack b top (b + BitVec.ofNat 64 i) :=
    frame_onStack fits inside
  have bottom : c.gpr .rsp - 8 = b := by
    rw [sp]
    exact BitVec.add_sub_cancel b 8
  let pushed := (c.interrupted top (w 0)).pushed (c.gpr .rbp)
  have rsp : pushed.gpr .rsp = b := (Cpu.pushed_rsp ..).trans bottom
  have bytes : (c.mem.write b 8 (c.gpr .rbp)).SameBytes pushed.mem b b 184 := by
    have stored : pushed.mem = (c.mem.interrupted (c.gpr .rsp) top (w 0)).write (c.gpr .rsp - 8) 8
        (c.gpr .rbp) := rfl
    rw [stored, bottom, sp]
    exact pushed_bytes fits (w 0) c.mem _
  have here : ((pushed.interrupted top (w 1)).set .rbp (pushed.gpr .rsp)).At
      (c.mem.write b 8 (c.gpr .rbp)) b b 184 := by
    refine ⟨?_, ?_, ?_⟩
    · rw [Cpu.set_self, rsp]
    · rw [Cpu.set_of_ne _ _ (by decide)]
      exact rsp
    · have kept := bytes.interrupted (w := w 1) on
      rw [← rsp] at kept ⊢
      exact kept
  have argument := (here.interrupted on (w 2)).set (r := .rdi) (by decide)
    (((pushed.interrupted top (w 1)).set .rbp (pushed.gpr .rsp)).gpr .rbp + 0x10)
  exact called_at obeys back (argument.interrupted on (w 3))

end

/-! ## From the move on -/

/-- The frame below its last three words, after interrupts at a number of boundaries from the move
on. -/
def Uncovered (F : Memory) (b : Word) (w : Nat → Overwrite) (n : Nat) (m : Memory) : Prop :=
  ((lastWritten w moved n).on F).SameBytes m b b 0xa0

/-- The word that an instruction finds in the uncovered part of the frame. -/
def leftWord (F : Memory) (b : Word) (w : Nat → Overwrite) (n j : Nat) : Word :=
  ((lastWritten w moved n).on F).read (b + BitVec.ofNat 64 j) 8

section
variable {F m : Memory} {b : Word} {room : Nat} {w : Nat → Overwrite} {n : Nat}

/-- An interrupt writes over all of the uncovered frame. -/
theorem Uncovered.interrupted (uncovered : Uncovered F b w n m) (fits : room + 192 ≤ 2 ^ 64)
    {s : Nat} (above : 0xa0 ≤ s) (inside : s ≤ 184) :
    Uncovered F b w (n + 1) (m.interrupted (b + BitVec.ofNat 64 s)
      (b + BitVec.ofNat 64 (184 + room)) (w (moved + n))) := by
  intro i hi
  have off : ¬OnStack (b + BitVec.ofNat 64 s) (b + BitVec.ofNat 64 (184 + room))
      (b + BitVec.ofNat 64 i) := by
    rw [onStack_iff b (by omega) (by omega) (by omega)]
    omega
  rw [Memory.interrupted_of_not off, lastWritten_on_succ]
  exact congrArg _ (uncovered i hi)

/-- A word written above the uncovered part of the frame leaves that alone. -/
theorem Uncovered.write (uncovered : Uncovered F b w n m) {j : Nat} (above : 0xa0 ≤ j)
    (inside : j + 8 ≤ 184) (v : Word) :
    Uncovered F b w n (m.write (b + BitVec.ofNat 64 j) 8 v) := by
  intro i hi
  have distance : 8 ≤ offset (b + BitVec.ofNat 64 j) (b + BitVec.ofNat 64 i) := by
    rw [offset_add_add_mod b (by omega)]
    omega
  rw [Memory.write_of_le _ _ _ _ distance]
  exact uncovered i hi

/-- A word of the uncovered frame is what is left there. -/
theorem Uncovered.read (uncovered : Uncovered F b w n m) {j : Nat} (inside : j + 8 ≤ 0xa0) :
    m.read (b + BitVec.ofNat 64 j) 8 = leftWord F b w n j :=
  (uncovered.part inside).read.symm

/-- A word at the stack pointer or above it is kept. -/
theorem read_interrupted (fits : room + 192 ≤ 2 ^ 64) {s j : Nat} (above : s ≤ j)
    (inside : j + 8 ≤ 184) (w : Overwrite) :
    (m.interrupted (b + BitVec.ofNat 64 s) (b + BitVec.ofNat 64 (184 + room)) w).read
      (b + BitVec.ofNat 64 j) 8 = m.read (b + BitVec.ofNat 64 j) 8 := by
  apply Memory.read_congr
  intro i hi
  rw [← add_ofNat_add]
  apply Memory.interrupted_of_onStack
  rw [onStack_iff b (by omega) (by omega) (by omega)]
  omega

variable {callee : Cpu → Cpu} {c : Cpu}

variable (callee w) in
/-- The move uncovers the frame, and the flags are read from the stack pointer as the move leaves
it. -/
theorem move_read (fits : room + 192 ≤ 2 ^ 64) (here : c.At F b b 184) :
    let top := b + BitVec.ofNat 64 (184 + room)
    let line := [.lea 0xa0 .rbp .rsp, .popf]
    let c' := execInterrupted callee top w 13 line c
    wordsRead (visited callee top w 13 line c) = [F.read (b + 0xa0) 8] ∧
      c'.gpr .rbp = b ∧ c'.gpr .rsp = b + 0xa8 ∧ Uncovered F b w 1 c'.mem := by
  intro top line c'
  have on (i : Nat) (inside : i < 184) : OnStack b top (b + BitVec.ofNat 64 i) :=
    frame_onStack fits inside
  have paused := here.interrupted on (w 13)
  let raised := (c.interrupted top (w 13)).set .rsp ((c.interrupted top (w 13)).gpr .rbp + 0xa0)
  have sp : raised.gpr .rsp = b + 0xa0 := by rw [Cpu.set_self, paused.base]
  have base : raised.gpr .rbp = b := by
    rw [Cpu.set_of_ne _ _ (by decide), paused.base]
  have whole : Uncovered F b w 0 raised.mem := fun i hi => paused.bytes i (by omega)
  have uncovered := whole.interrupted fits (s := 0xa0) (by decide) (by decide)
  have flags : (raised.mem.interrupted (b + 0xa0) top (w 14)).read (b + 0xa0) 8 =
      F.read (b + 0xa0) 8 :=
    (read_interrupted fits (s := 0xa0) (j := 0xa0) le_rfl (by decide) (w 14)).trans
      (paused.bytes.part (i := 0xa0) (k := 8) (by decide)).read.symm
  let last := raised.interrupted top (w 14)
  have mem : last.mem = raised.mem.interrupted (b + 0xa0) top (w 14) := by
    rw [Cpu.interrupted_mem, sp]
  refine ⟨?_, ?_, ?_, ?_⟩
  · change [last.mem.read (last.gpr .rsp) 8] = _
    rw [mem, Cpu.interrupted_gpr, sp, flags]
  · change last.dropped.gpr .rbp = b
    rw [Cpu.dropped, Cpu.set_of_ne _ _ (by decide)]
    exact base
  · change last.dropped.gpr .rsp = b + 0xa8
    rw [Cpu.dropped, Cpu.set_self, Cpu.interrupted_gpr, sp]
    exact BitVec.add_assoc b 0xa0#64 8#64
  · change Uncovered F b w 1 last.mem
    rw [mem]
    exact uncovered

/-- The return reads the words that it takes and those that it copies from the uncovered frame. -/
theorem leaveFrame_read (fits : room + 192 ≤ 2 ^ 64) (base : c.gpr .rbp = b)
    (sp : c.gpr .rsp = b + 0xa8) (uncovered : Uncovered F b w 1 c.mem) :
    wordsRead (visited callee (b + BitVec.ofNat 64 (184 + room)) w 15 leaveFrame c) =
      [leftWord F b w 2 0x0, leftWord F b w 4 0x8, leftWord F b w 6 0x60, leftWord F b w 2 0x0,
        leftWord F b w 4 0x8] := by
  let top := b + BitVec.ofNat 64 (184 + room)
  let at168 (m : Memory) (w : Overwrite) := m.interrupted (b + 0xa8) top w
  let m₁₅ := at168 c.mem (w 15)
  let m₁₆ := at168 m₁₅ (w 16)
  let m₁₇ := at168 (m₁₆.write (b + 0xa8) 8 (m₁₅.read (b + 0x0) 8)) (w 17)
  let m₁₈ := at168 m₁₇ (w 18)
  let m₁₉ := at168 (m₁₈.write (b + 0xb0) 8 (m₁₇.read (b + 0x8) 8)) (w 19)
  let m₂₁ := at168 (at168 m₁₉ (w 20)) (w 21)
  let m₂₂ := m₂₁.interrupted (b + 0xb0) top (w 22)
  have words : wordsRead (visited callee top w 15 leaveFrame c) =
      [m₁₅.read (b + 0x0) 8, m₁₇.read (b + 0x8) 8, m₁₉.read (b + 0x60) 8, m₂₁.read (b + 0xa8) 8,
        m₂₂.read (b + 0xb0) 8] := by
    have next : b + 0xa8 + 8 = b + 0xb0 := BitVec.add_assoc b 0xa8#64 8#64
    simp only [leaveFrame, visited, wordsRead, exec, Cpu.set, Cpu.dropped, Cpu.top,
      Cpu.interrupted, base, sp, List.filterMap, Instr.readAt, Option.map, ne_eq, reduceCtorEq,
      not_false_eq_true, Function.update_of_ne, Function.update_self, next]
    rfl
  -- What is below the stack pointer.
  have low₁₅ : Uncovered F b w 2 m₁₅ := uncovered.interrupted fits (by decide) (by decide)
  have low₁₆ : Uncovered F b w 3 m₁₆ := low₁₅.interrupted fits (by decide) (by decide)
  have low₁₇ : Uncovered F b w 4 m₁₇ :=
    (low₁₆.write (j := 0xa8) (by decide) (by decide) _).interrupted fits (by decide) (by decide)
  have low₁₈ : Uncovered F b w 5 m₁₈ := low₁₇.interrupted fits (by decide) (by decide)
  have low₁₉ : Uncovered F b w 6 m₁₉ :=
    (low₁₈.write (j := 0xb0) (by decide) (by decide) _).interrupted fits (by decide) (by decide)
  have read₁₅ : m₁₅.read (b + 0x0) 8 = leftWord F b w 2 0x0 := low₁₅.read (j := 0x0) (by decide)
  have read₁₇ : m₁₇.read (b + 0x8) 8 = leftWord F b w 4 0x8 := low₁₇.read (j := 0x8) (by decide)
  have read₁₉ : m₁₉.read (b + 0x60) 8 = leftWord F b w 6 0x60 :=
    low₁₉.read (j := 0x60) (by decide)
  -- What has been copied above it.
  have kept {s j : Nat} (above : s ≤ j) (inside : j + 8 ≤ 184) (m : Memory) (w : Overwrite) :
      (m.interrupted (b + BitVec.ofNat 64 s) top w).read (b + BitVec.ofNat 64 j) 8 =
        m.read (b + BitVec.ofNat 64 j) 8 := read_interrupted fits above inside w
  have read₂₁ : m₂₁.read (b + 0xa8) 8 = m₁₅.read (b + 0x0) 8 :=
    calc
      m₂₁.read (b + 0xa8) 8 = (at168 m₁₉ (w 20)).read (b + 0xa8) 8 :=
        kept (s := 0xa8) (j := 0xa8) le_rfl (by decide) _ _
      _ = m₁₉.read (b + 0xa8) 8 := kept (s := 0xa8) (j := 0xa8) le_rfl (by decide) _ _
      _ = (m₁₈.write (b + 0xb0) 8 (m₁₇.read (b + 0x8) 8)).read (b + 0xa8) 8 :=
        kept (s := 0xa8) (j := 0xa8) le_rfl (by decide) _ _
      _ = m₁₈.read (b + 0xa8) 8 :=
        m₁₈.read_write_apart b _ (i := 0xb0) (j := 0xa8) (.inr (by decide)) (by decide)
      _ = m₁₇.read (b + 0xa8) 8 := kept (s := 0xa8) (j := 0xa8) le_rfl (by decide) _ _
      _ = (m₁₆.write (b + 0xa8) 8 (m₁₅.read (b + 0x0) 8)).read (b + 0xa8) 8 :=
        kept (s := 0xa8) (j := 0xa8) le_rfl (by decide) _ _
      _ = m₁₅.read (b + 0x0) 8 := Memory.read_write_word _ _ _
  have read₂₂ : m₂₂.read (b + 0xb0) 8 = m₁₇.read (b + 0x8) 8 :=
    calc
      m₂₂.read (b + 0xb0) 8 = m₂₁.read (b + 0xb0) 8 :=
        kept (s := 0xb0) (j := 0xb0) le_rfl (by decide) _ _
      _ = (at168 m₁₉ (w 20)).read (b + 0xb0) 8 :=
        kept (s := 0xa8) (j := 0xb0) (by decide) (by decide) _ _
      _ = m₁₉.read (b + 0xb0) 8 := kept (s := 0xa8) (j := 0xb0) (by decide) (by decide) _ _
      _ = (m₁₈.write (b + 0xb0) 8 (m₁₇.read (b + 0x8) 8)).read (b + 0xb0) 8 :=
        kept (s := 0xa8) (j := 0xb0) (by decide) (by decide) _ _
      _ = m₁₇.read (b + 0x8) 8 := Memory.read_write_word _ _ _
  rw [words, read₂₁, read₂₂, read₁₅, read₁₇, read₁₉]

/-! ## The whole way -/

/-- The words of the frame that are read up to the move, and the flags. -/
def restoredWords (F : Memory) (b : Word) : List Word :=
  restored.map (fun p => F.read (b + BitVec.ofNat 64 p.1) 8) ++ [F.read (b + 0xa0) 8]

/-- The words that the trampoline reads after the move. -/
def leftWords (F : Memory) (b : Word) (w : Nat → Overwrite) : List Word :=
  [leftWord F b w 2 0x0, leftWord F b w 4 0x8, leftWord F b w 6 0x60, leftWord F b w 2 0x0,
    leftWord F b w 4 0x8]

/-- Up to the flags, the words are read from the frame as the prologue completes it. -/
theorem upToMove_read (obeys : CallingConvention (room + 184) callee) (fits : room + 192 ≤ 2 ^ 64)
    (back : Word) (sp : c.gpr .rsp = b + 8) :
    let top := b + BitVec.ofNat 64 (184 + room)
    let F := c.mem.write b 8 (c.gpr .rbp)
    let line := callRealWork back ++ restoreRegisters
    let c' := execInterrupted callee top w 0 line c
    wordsRead (visited callee top w 0 line c) = restoredWords F b ∧
      c'.gpr .rbp = b ∧ c'.gpr .rsp = b + 0xa8 ∧ Uncovered F b w 1 c'.mem := by
  intro top F line c'
  have on (i : Nat) (inside : i < 184) : OnStack b top (b + BitVec.ofNat 64 i) :=
    frame_onStack fits inside
  have called := callRealWork_at obeys fits w back sp
  have inside : ∀ p ∈ restored, p.1 + 8 ≤ 184 ∧ p.2 ≠ .rbp ∧ p.2 ≠ .rsp := by decide
  obtain ⟨words, loaded⟩ := loads_read callee w on inside 4 called
  obtain ⟨flags, moved⟩ := move_read w callee fits loaded
  have parts : line = callRealWork back ++ (loads restored ++ [.lea 0xa0 .rbp .rsp, .popf]) := rfl
  have counts : 0 + (callRealWork back).length = 4 ∧ 4 + (loads restored).length = 13 := ⟨rfl, rfl⟩
  have nothing : wordsRead (visited callee top w 0 (callRealWork back) c) = [] := rfl
  have after : c' = execInterrupted callee top w 13 [.lea 0xa0 .rbp .rsp, .popf]
      (execInterrupted callee top w 4 (loads restored)
        (execInterrupted callee top w 0 (callRealWork back) c)) := by
    simp only [c', parts, execInterrupted_append, counts]
  refine ⟨?_, after ▸ moved⟩
  rw [parts, visited_append, counts.1, visited_append, counts.2, wordsRead_append,
    wordsRead_append, nothing, words, flags]
  rfl

/-- `int3_actual_work` reads the words of the frame, and below the stack pointer what is left of
them. -/
theorem int3ActualWork_read (obeys : CallingConvention (room + 184) callee)
    (fits : room + 192 ≤ 2 ^ 64) (back : Word) (sp : c.gpr .rsp = b + 8) :
    let F := c.mem.write b 8 (c.gpr .rbp)
    wordsRead (visited callee (b + BitVec.ofNat 64 (184 + room)) w 0 (int3ActualWork back) c) =
      restoredWords F b ++ leftWords F b w := by
  obtain ⟨words, base, raised, uncovered⟩ := upToMove_read (w := w) obeys fits back sp
  have count : 0 + (callRealWork back ++ restoreRegisters).length = 15 := rfl
  rw [int3ActualWork, visited_append, count, wordsRead_append, words,
    leaveFrame_read fits base raised uncovered]
  rfl

/-- The bottom word of the frame is read from below the stack pointer. -/
theorem int3ActualWork_below (obeys : CallingConvention (room + 184) callee)
    (fits : room + 192 ≤ 2 ^ 64) (back : Word) (sp : c.gpr .rsp = b + 8) :
    ¬ReadsOnStack (b + BitVec.ofNat 64 (184 + room))
      (visited callee (b + BitVec.ofNat 64 (184 + room)) w 0 (int3ActualWork back) c) := by
  let top := b + BitVec.ofNat 64 (184 + room)
  obtain ⟨-, base, raised, -⟩ := upToMove_read (w := w) obeys fits back sp
  let here := (execInterrupted callee top w 0 (callRealWork back ++ restoreRegisters) c).interrupted
    top (w 15)
  have member : (Instr.load 0x0 .rbp .rax, here) ∈
      visited callee top w 0 (int3ActualWork back) c := by
    rw [int3ActualWork, visited_append]
    exact List.mem_append_right _ List.mem_cons_self
  intro above
  have on := above _ member _ rfl 0 (by decide)
  have place : (here.gpr .rbp + 0x0 + BitVec.ofNat 64 0) = b + BitVec.ofNat 64 0 := by
    rw [Cpu.interrupted_gpr, base]
    exact congrArg (· + BitVec.ofNat 64 0) (BitVec.add_zero b)
  have sp : here.gpr .rsp = b + BitVec.ofNat 64 0xa8 := raised
  rw [place, sp, onStack_iff b (by omega) (by omega) (by omega)] at on
  omega

/-- A word that the rest reads is that of the frame exactly when the interrupts leave it so. -/
theorem leftWord_eq_iff (F : Memory) (b : Word) (w : Nat → Overwrite) (n j : Nat) :
    leftWord F b w n j = leftWord F b quiet n j ↔
      (lastWritten w moved n).Keeps (b + BitVec.ofNat 64 j)
        (F.read (b + BitVec.ofNat 64 j) 8) := by
  have nothing : (lastWritten quiet moved n).on F = F := by
    rw [lastWritten_quiet]
    rfl
  rw [leftWord, leftWord, nothing]
  exact Overwrite.read_on_iff _ F _

end

/-- The frame of a diverted trap when the prologue has completed it. -/
theorem frameAt_prologue (work : Word) (m : Memory) (regs : PtRegs) :
    let frame := buildFrame work m regs
    FrameAt (frame.1.write (regs.sp - 184) 8 regs.bp) (regs.sp - 184) regs.bp regs.ip
      { regs with sp := regs.sp - PtRegs.size } := by
  intro frame
  have called := frameAt_realWork work 0 m regs
  have bottom : regs.sp - PtRegs.size - 8 - 8 = regs.sp - 184 := by
    simp only [PtRegs.size]
    bv_omega
  refine called.congr fun i hi => ?_
  have mem : (atRealWork 0 frame.1 frame.2).mem =
      (frame.1.write (regs.sp - 184) 8 regs.bp).write (regs.sp - 184 - 8) 8 0 := by
    rw [← bottom]
    rfl
  have above : 8 ≤ offset (regs.sp - 184 - 8) (regs.sp - 184 + BitVec.ofNat 64 i) := by
    have distance : offset (regs.sp - 184 - 8) (regs.sp - 184 + BitVec.ofNat 64 i) = 8 + i :=
      offset_sub_add (regs.sp - 184) 8 (by omega)
    omega
  rw [mem]
  exact (Memory.write_of_le _ _ _ _ above).symm

/-- The processor when a diverted trap has returned, with the frame as the prologue completes it. -/
theorem returnFromTrap_frame {work : Word} {s s' : Bp} {regs regs' : PtRegs}
    (diverted : int3Drddr work s regs = (.diverted, s', regs')) :
    let b := regs.sp - 184
    let start := returnFromTrap s'.text regs'
    start.gpr .rsp = b + 8 ∧
      FrameAt (start.mem.write b 8 (start.gpr .rbp)) b regs.bp (regs.ip - 1)
        { regs with ip := regs.ip - 1, sp := regs.sp - PtRegs.size } := by
  intro b start
  obtain ⟨s₁, s₂, -, -, -, after, returned⟩ := int3Drddr_diverted diverted
  constructor
  · have low : start.gpr .rsp = regs'.sp := rfl
    rw [low, returned]
    change regs.sp - PtRegs.size - 8 = regs.sp - 184 + 8
    simp only [PtRegs.size]
    bv_omega
  · have mem : start.mem = (buildFrame work s₂.text { regs with ip := regs.ip - 1 }).1 := by
      have text : start.mem = s'.text := rfl
      rw [text, after]
    have bp : start.gpr .rbp = regs.bp := by
      have base : start.gpr .rbp = regs'.bp := rfl
      rw [base, returned]
      rfl
    rw [mem, bp]
    exact frameAt_prologue work s₂.text { regs with ip := regs.ip - 1 }

/-- What the rest reads is the frame's exactly when the interrupts leave three of its words so. -/
theorem leftWords_eq_iff {F : Memory} {b bp ip : Word} {saved : PtRegs}
    (framed : FrameAt F b bp ip saved) (w : Nat → Overwrite) :
    leftWords F b w = leftWords F b quiet ↔
      (lastWritten w moved 2).Keeps b bp ∧ (lastWritten w moved 4).Keeps (b + 0x8) ip ∧
        (lastWritten w moved 6).Keeps (b + 0x60) saved.ax := by
  have bottom : leftWord F b w 2 0x0 = leftWord F b quiet 2 0x0 ↔
      (lastWritten w moved 2).Keeps b bp := by
    have zero : b + BitVec.ofNat 64 0x0 = b := BitVec.add_zero b
    rw [leftWord_eq_iff, zero, framed.bottom]
  have second : leftWord F b w 4 0x8 = leftWord F b quiet 4 0x8 ↔
      (lastWritten w moved 4).Keeps (b + 0x8) ip := by
    have word : F.read (b + BitVec.ofNat 64 0x8) 8 = ip := framed.second
    rw [leftWord_eq_iff, word]
    rfl
  have last : leftWord F b w 6 0x60 = leftWord F b quiet 6 0x60 ↔
      (lastWritten w moved 6).Keeps (b + 0x60) saved.ax := by
    rw [leftWord_eq_iff, framed.ax]
    rfl
  simp only [leftWords, List.cons.injEq, and_true]
  rw [← bottom, ← second, ← last]
  constructor
  · rintro ⟨first, next, third, -, -⟩
    exact ⟨first, next, third⟩
  · rintro ⟨first, next, third⟩
    exact ⟨first, next, third, first, next⟩

/-- For every diverted trap, words of the frame are read from below the stack pointer. With
interrupts at every boundary, the words that are read are those without interrupts exactly when what
is written last, from the move of the stack pointer up to the read, over the base pointer, the
instruction pointer and `%rax` in the frame leaves them as they are. -/
theorem trampoline_reads_iff {work back : Word} {s s' : Bp} {regs regs' : PtRegs} {room : Nat}
    {callee : Cpu → Cpu} (obeys : CallingConvention (room + 184) callee)
    (fits : room + 192 ≤ 2 ^ 64) (diverted : int3Drddr work s regs = (.diverted, s', regs'))
    (w : Nat → Overwrite) :
    let top := regs.sp + BitVec.ofNat 64 room
    let b := regs.sp - 184
    let steps w := visited callee top w 0 (int3ActualWork back) (returnFromTrap s'.text regs')
    ¬ReadsOnStack top (steps w) ∧
      (wordsRead (steps w) = wordsRead (steps quiet) ↔
        (lastWritten w moved 2).Keeps b regs.bp ∧
          (lastWritten w moved 4).Keeps (b + 0x8) (regs.ip - 1) ∧
          (lastWritten w moved 6).Keeps (b + 0x60) regs.ax) := by
  intro top b steps
  obtain ⟨sp, framed⟩ := returnFromTrap_frame diverted
  have above : top = b + BitVec.ofNat 64 (184 + room) :=
    (sub_add_ofNat_add regs.sp 184 room).symm
  let start := returnFromTrap s'.text regs'
  have words (w : Nat → Overwrite) : wordsRead (steps w) =
      restoredWords (start.mem.write b 8 (start.gpr .rbp)) b ++
        leftWords (start.mem.write b 8 (start.gpr .rbp)) b w := by
    simp only [steps, above]
    exact int3ActualWork_read obeys fits back sp
  constructor
  · rw [above]
    simp only [steps, above]
    exact int3ActualWork_below obeys fits back sp
  · rw [words w, words quiet, List.append_cancel_left_eq]
    exact leftWords_eq_iff framed w

/-- Registers when a push traps with interrupts enabled. -/
def enabledTrapRegs : PtRegs := { pushTrapRegs with flags := 0x202 }

/-- An interrupt that leaves one byte right where the base pointer is, when the stack pointer has
moved. -/
def oneByte : Nat → Overwrite := fun k a => if k = moved ∧ a = 0x8000 - 184 then some 1 else none

/-- The words that the way back of the push reads. -/
theorem trampoline_reads_iff_push :
    let after := int3Drddr 0x5000 pushTrap enabledTrapRegs
    let top := enabledTrapRegs.sp + BitVec.ofNat 64 0x8000
    let b := enabledTrapRegs.sp - 184
    let steps w := visited clobber top w 0 (int3ActualWork 0x5010)
      (returnFromTrap after.2.1.text after.2.2)
    ¬ReadsOnStack top (steps oneByte) ∧
      (wordsRead (steps oneByte) = wordsRead (steps quiet) ↔
        (lastWritten oneByte moved 2).Keeps b enabledTrapRegs.bp ∧
          (lastWritten oneByte moved 4).Keeps (b + 0x8) (enabledTrapRegs.ip - 1) ∧
          (lastWritten oneByte moved 6).Keeps (b + 0x60) enabledTrapRegs.ax) :=
  @trampoline_reads_iff 0x5000 0x5010 pushTrap _ enabledTrapRegs _ 0x8000 clobber
    (callingConvention_clobber (by decide)) (by decide) (Prod.ext (by decide) rfl) oneByte

/-- With one byte overwritten by an interrupt, the trampoline reads other words. -/
theorem trampoline_reads_overwritten :
    let after := int3Drddr 0x5000 pushTrap enabledTrapRegs
    let top := enabledTrapRegs.sp + BitVec.ofNat 64 0x8000
    let steps w := visited clobber top w 0 (int3ActualWork 0x5010)
      (returnFromTrap after.2.1.text after.2.2)
    after.1 = .diverted ∧ ¬ReadsOnStack top (steps quiet) ∧
      wordsRead (steps oneByte) ≠ wordsRead (steps quiet) := by
  intro after top steps
  let start := returnFromTrap after.2.1.text after.2.2
  let b := enabledTrapRegs.sp - 184
  have obeys : CallingConvention (0x8000 + 184) clobber := callingConvention_clobber (by decide)
  have above : top = b + BitVec.ofNat 64 (184 + 0x8000) := by decide
  have sp : start.gpr .rsp = b + 8 := by
    have low : after.2.2.sp = b + 8 := by decide
    exact low
  refine ⟨by decide, ?_, ?_⟩
  · simp only [steps, above]
    exact int3ActualWork_below obeys (by decide) _ sp
  · let F := start.mem.write b 8 (start.gpr .rbp)
    have words (w : Nat → Overwrite) :
        wordsRead (steps w) = restoredWords F b ++ leftWords F b w := by
      simp only [steps, above]
      exact int3ActualWork_read obeys (by decide) 0x5010 sp
    intro same
    rw [words oneByte, words quiet, List.append_cancel_left_eq] at same
    have bottom : leftWord F b oneByte 2 0x0 = leftWord F b quiet 2 0x0 := (List.cons.inj same).1
    have kept := (leftWord_eq_iff F b oneByte 2 0x0).mp bottom 0 (by decide) 1 (by decide)
    have word : F.read (b + BitVec.ofNat 64 0x0) 8 = 0 := by
      have zero : b + BitVec.ofNat 64 0x0 = b := BitVec.add_zero b
      have base : after.2.2.bp = 0 := by decide
      rw [zero]
      exact (Memory.read_write_word _ _ _).trans base
    rw [word] at kept
    exact absurd kept (by decide)

end Drddr
