import Drddr.Machine.Assembly

/-!
# Interrupted execution

A line of assembly with interrupts between its instructions. An interrupt runs on the stack that it
finds: it returns with every register, and it may leave other bytes in memory wherever that stack is
not in use, right below the stack pointer too.
-/

namespace Machine

/-- What an interrupt writes to each address, if anything. -/
abbrev Overwrite := Word → Option Byte

/-- The memory after an interrupt, if nothing is kept from it. -/
def Overwrite.on (w : Overwrite) (m : Memory) : Memory := fun a => (w a).getD (m a)

/-- What the interrupts at a number of boundaries have written last. -/
def lastWritten (w : Nat → Overwrite) (first : Nat) : Nat → Overwrite
  | 0 => fun _ => none
  | n + 1 => fun a => w (first + n) a <|> lastWritten w first n a

/-- The stack in use: from the stack pointer up to the top. -/
def OnStack (sp top a : Word) : Prop := offset sp a < offset sp top

instance (sp top a : Word) : Decidable (OnStack sp top a) := inferInstanceAs (Decidable (_ < _))

/-- The memory after an interrupt. -/
def Memory.interrupted (m : Memory) (sp top : Word) (w : Overwrite) : Memory :=
  fun a => if OnStack sp top a then m a else w.on m a

/-- An interrupt. -/
def Cpu.interrupted (c : Cpu) (top : Word) (w : Overwrite) : Cpu :=
  { c with mem := c.mem.interrupted (c.gpr .rsp) top w }

/-- An interrupt leaves the registers alone. -/
@[simp] theorem Cpu.interrupted_gpr (c : Cpu) (top : Word) (w : Overwrite) :
    (c.interrupted top w).gpr = c.gpr := rfl

/-- An interrupt changes the memory as it overwrites it. -/
@[simp] theorem Cpu.interrupted_mem (c : Cpu) (top : Word) (w : Overwrite) :
    (c.interrupted top w).mem = c.mem.interrupted (c.gpr .rsp) top w := rfl

section
variable (callee : Cpu → Cpu) (top : Word) (w : Nat → Overwrite)

/-- The instructions of a line, each with the processor that executes it, when there is an
interrupt at every boundary. The boundary before the first one has a number. -/
def visited : Nat → List Instr → Cpu → List (Instr × Cpu)
  | _, [], _ => []
  | k, instr :: line, c =>
    let c := c.interrupted top (w k)
    (instr, c) :: visited (k + 1) line (exec callee instr c)

/-- The processor after the line. -/
def execInterrupted : Nat → List Instr → Cpu → Cpu
  | _, [], c => c
  | k, instr :: line, c =>
    execInterrupted (k + 1) line (exec callee instr (c.interrupted top (w k)))

end

/-- The address of the word that an instruction reads, if it reads one. What a called function reads
is its own. -/
def Instr.readAt : Instr → Cpu → Option Word
  | .load disp base _, c => some (c.gpr base + disp)
  | .popf, c => some (c.gpr .rsp)
  | .leave, c => some (c.gpr .rbp)
  | .ret, c => some (c.gpr .rsp)
  | _, _ => none

/-- The words that the instructions of a line read. -/
def wordsRead (steps : List (Instr × Cpu)) : List Word :=
  steps.filterMap fun step => (step.1.readAt step.2).map (step.2.mem.read · 8)

/-- Every word is read from the stack in use. -/
def ReadsOnStack (top : Word) (steps : List (Instr × Cpu)) : Prop :=
  ∀ step ∈ steps, ∀ a, step.1.readAt step.2 = some a →
    ∀ i < 8, OnStack (step.2.gpr .rsp) top (a + BitVec.ofNat 64 i)

/-- What is written over a word leaves it as it was. -/
def Overwrite.Keeps (w : Overwrite) (a word : Word) : Prop :=
  ∀ i < 8, ∀ v, w (a + BitVec.ofNat 64 i) = some v → v = Memory.byteOf word i

/-! ## Interrupts that write nothing -/

/-- No interrupt at any boundary. -/
def quiet : Nat → Overwrite := fun _ _ => none

/-- Interrupts that write nothing leave the processor alone. -/
@[simp] theorem Cpu.interrupted_quiet (c : Cpu) (top : Word) (k : Nat) :
    c.interrupted top (quiet k) = c := by
  have same : c.mem.interrupted (c.gpr .rsp) top (quiet k) = c.mem := by
    funext a
    unfold Memory.interrupted
    split
    · rfl
    · rfl
  rw [interrupted, same]

/-- Without interrupts the line is executed as it is. -/
theorem execInterrupted_quiet (callee : Cpu → Cpu) (top : Word) (k : Nat) (line : List Instr)
    (c : Cpu) : execInterrupted callee top quiet k line c = execLine callee line c := by
  induction line generalizing k c with
  | nil => rfl
  | cons instr line ih =>
    rw [execInterrupted, Cpu.interrupted_quiet, ih]
    rfl

/-- Interrupts that write nothing have written nothing last. -/
theorem lastWritten_quiet (first n : Nat) : lastWritten quiet first n = fun _ => none := by
  induction n with
  | zero => rfl
  | succ n ih =>
    funext a
    rw [lastWritten, ih]
    rfl

/-! ## One line after another -/

section
variable (callee : Cpu → Cpu) (top : Word) (w : Nat → Overwrite)

/-- Two lines run one after the other, with the boundaries counted on. -/
theorem execInterrupted_append (k : Nat) (front back : List Instr) (c : Cpu) :
    execInterrupted callee top w k (front ++ back) c =
      execInterrupted callee top w (k + front.length) back
        (execInterrupted callee top w k front c) := by
  induction front generalizing k c with
  | nil => rfl
  | cons instr front ih =>
    have count : k + (instr :: front).length = k + 1 + front.length := by
      rw [List.length_cons]
      omega
    rw [count]
    exact ih (k + 1) _

/-- The states before the instructions of two lines are those of the one and then those of the
other. -/
theorem visited_append (k : Nat) (front back : List Instr) (c : Cpu) :
    visited callee top w k (front ++ back) c = visited callee top w k front c ++
      visited callee top w (k + front.length) back (execInterrupted callee top w k front c) := by
  induction front generalizing k c with
  | nil => rfl
  | cons instr front ih =>
    have count : k + (instr :: front).length = k + 1 + front.length := by
      rw [List.length_cons]
      omega
    rw [count]
    exact congrArg _ (ih (k + 1) _)

end

/-- The words that two lines read are those of the one and then those of the other. -/
theorem wordsRead_append (front back : List (Instr × Cpu)) :
    wordsRead (front ++ back) = wordsRead front ++ wordsRead back :=
  List.filterMap_append

/-! ## The stack in use -/

/-- Whether a byte is on the stack in use is told by its distance from a base. -/
theorem onStack_iff (b : Word) {sp top j : Nat} (le : sp ≤ top) (fits : top < 2 ^ 64)
    (inside : j < 2 ^ 64) :
    OnStack (b + BitVec.ofNat 64 sp) (b + BitVec.ofNat 64 top) (b + BitVec.ofNat 64 j) ↔
      sp ≤ j ∧ j < top := by
  rw [OnStack, offset_add_add_mod b (by omega), offset_add_add b le (by omega)]
  omega

namespace Memory

variable {m : Memory} {sp top a : Word} {w : Overwrite}

/-- A byte of the stack in use is kept by an interrupt. -/
theorem interrupted_of_onStack (on : OnStack sp top a) : m.interrupted sp top w a = m a := if_pos on

/-- A byte off the stack in use is overwritten by an interrupt. -/
theorem interrupted_of_not (off : ¬OnStack sp top a) : m.interrupted sp top w a = w.on m a :=
  if_neg off

/-- Bytes of the stack in use are kept. -/
theorem SameBytes.interrupted {F : Memory} {n : Nat} (same : F.SameBytes m a a n)
    (on : ∀ i < n, OnStack sp top (a + BitVec.ofNat 64 i)) :
    F.SameBytes (m.interrupted sp top w) a a n := by
  intro i hi
  rw [interrupted_of_onStack (on i hi)]
  exact same i hi

/-- Two words are the same exactly when their bytes are. -/
theorem read_eq_iff {m m' : Memory} : m.read a 8 = m'.read a 8 ↔ m.SameBytes m' a a 8 := by
  constructor
  · intro same i hi
    rw [← byteOf_read m a hi le_rfl, ← byteOf_read m' a hi le_rfl, same]
  · exact SameBytes.read

end Memory

/-! ## What the interrupts leave -/

/-- One more boundary writes over what has been written before it. -/
theorem lastWritten_on_succ (w : Nat → Overwrite) (first n : Nat) (m : Memory) :
    (lastWritten w first (n + 1)).on m = (w (first + n)).on ((lastWritten w first n).on m) := by
  funext a
  simp only [Overwrite.on, lastWritten]
  cases w (first + n) a with
  | none => rfl
  | some v => rfl

/-- A word is read as it was exactly when what is written over it leaves it so. -/
theorem Overwrite.read_on_iff (w : Overwrite) (m : Memory) (a : Word) :
    (w.on m).read a 8 = m.read a 8 ↔ w.Keeps a (m.read a 8) := by
  rw [Memory.read_eq_iff]
  refine forall_congr' fun i => forall_congr' fun hi => ?_
  rw [Memory.byteOf_read m a hi le_rfl, Overwrite.on]
  cases w (a + BitVec.ofNat 64 i) with
  | none => exact iff_of_true rfl fun v no => nomatch no
  | some v => exact ⟨fun same u is => Option.some.inj is ▸ same, fun keeps => keeps v rfl⟩

/-! ## Loads from the stack in use -/

/-- Two registers name a place and the stack pointer, and the bytes at the place are given. -/
structure Cpu.At (F : Memory) (b sp : Word) (n : Nat) (c : Cpu) : Prop where
  base : c.gpr .rbp = b
  rsp : c.gpr .rsp = sp
  bytes : F.SameBytes c.mem b b n

namespace Cpu.At

variable {F : Memory} {b sp top : Word} {n : Nat} {c : Cpu}

/-- An interrupt keeps the bytes of a frame that are on the stack in use. -/
theorem interrupted (here : c.At F b sp n) (on : ∀ i < n, OnStack sp top (b + BitVec.ofNat 64 i))
    (w : Overwrite) : (c.interrupted top w).At F b sp n := by
  refine ⟨here.base, here.rsp, ?_⟩
  have bytes := here.bytes
  rw [← here.rsp] at on
  exact bytes.interrupted on

/-- A write to another register leaves the place in the frame. -/
theorem set (here : c.At F b sp n) {r : Reg} (other : r ≠ .rbp ∧ r ≠ .rsp) (v : Word) :
    (c.set r v).At F b sp n := by
  refine ⟨?_, ?_, here.bytes⟩
  · rw [c.set_of_ne v other.1.symm, here.base]
  · rw [c.set_of_ne v other.2.symm, here.rsp]

/-- A word of the frame is read from the bytes that are there. -/
theorem read (here : c.At F b sp n) {j : Nat} (inside : j + 8 ≤ n) :
    c.mem.read (c.gpr .rbp + BitVec.ofNat 64 j) 8 = F.read (b + BitVec.ofNat 64 j) 8 := by
  rw [here.base]
  exact (here.bytes.part inside).read.symm

end Cpu.At

/-- Loads relative to the base pointer. -/
def loads (words : List (Nat × Reg)) : List Instr :=
  words.map fun p => .load (BitVec.ofNat 64 p.1) .rbp p.2

/-- Loads from the frame read the words that are there, and leave them there. -/
theorem loads_read (callee : Cpu → Cpu) {top : Word} (w : Nat → Overwrite) {F : Memory}
    {b sp : Word} {n : Nat} (on : ∀ i < n, OnStack sp top (b + BitVec.ofNat 64 i))
    {words : List (Nat × Reg)}
    (inside : ∀ p ∈ words, p.1 + 8 ≤ n ∧ p.2 ≠ .rbp ∧ p.2 ≠ .rsp) (k : Nat) {c : Cpu}
    (here : c.At F b sp n) :
    wordsRead (visited callee top w k (loads words) c) =
        words.map (fun p => F.read (b + BitVec.ofNat 64 p.1) 8) ∧
      (execInterrupted callee top w k (loads words) c).At F b sp n := by
  induction words generalizing k c with
  | nil => exact ⟨rfl, here⟩
  | cons p words ih =>
    obtain ⟨room, other⟩ := inside p List.mem_cons_self
    have paused := here.interrupted on (w k)
    have rest := ih (fun q member => inside q (List.mem_cons_of_mem p member)) (k + 1)
      (paused.set other ((c.interrupted top (w k)).mem.read
        ((c.interrupted top (w k)).gpr .rbp + BitVec.ofNat 64 p.1) 8))
    refine ⟨?_, rest.2⟩
    rw [List.map_cons, ← rest.1, ← paused.read room]
    rfl

end Machine
