import Drddr.Machine.Run
import Drddr.Machine.Stream
import Drddr.Monitor.Report

/-!
# Making the report while the tables change

The report is made when a reader asks for the first bytes of the file, in a buffer that all readers
share. `bp_monitor` prints the breakpoints under their lock, which only `bp_init` does without.
`wp_monitor` takes no lock: each value that it prints of a slot is read by itself, while watchpoints
come and go. A call that runs alone in its buffer prints the breakpoints of one state, and of each
slot values that the slot has had in the meantime.
-/

namespace Drddr

open Machine

/-- A value that `wp_monitor` prints of a slot in use. -/
inductive SlotColumn where
  | addr
  | length
  | iswrite
  deriving DecidableEq

/-- Two tables have the same value there. -/
def SlotColumn.Same (i : Fin 4) (t t' : WpTable) : SlotColumn → Prop
  | .addr => t.wpAddr i = t'.wpAddr i
  | .length => t.wpLength i = t'.wpLength i
  | .iswrite => t.wpIswrite i = t'.wpIswrite i

/-- Read one value of a slot. -/
def SlotColumn.read (i : Fin 4) (t : WpTable) (seen : WpTable) : SlotColumn → WpTable
  | .addr => { seen with wpAddr := Function.update seen.wpAddr i (t.wpAddr i) }
  | .length => { seen with wpLength := Function.update seen.wpLength i (t.wpLength i) }
  | .iswrite => { seen with wpIswrite := Function.update seen.wpIswrite i (t.wpIswrite i) }

/-- Read whether a slot is in use. -/
def WpTable.readUsage (i : Fin 4) (t : WpTable) (seen : WpTable) : WpTable :=
  { seen with wpUsage := Function.update seen.wpUsage i (t.wpUsage i) }

/-- How far a call of `mon_update` has come. -/
inductive MonitorPc where
  /-- In `bp_monitor`, before the test of the loop. -/
  | entry (i : Nat)
  /-- Before the read of `bp_state[i]`. -/
  | state (i : Nat)
  /-- In `wp_monitor`, before the test of the loop and the read of `wp_usage[i]`. -/
  | slot (i : Nat)
  /-- The slot is in use, and these of its values are still to be read for its line. -/
  | line (i : Fin 4) (left : List SlotColumn)
  /-- `mon_update` has returned. -/
  | done

/-- A call of `mon_update`. -/
structure MonitorCall where
  pc : MonitorPc
  /-- `cur`. -/
  cur : Nat
  /-- What it has read of the slots. -/
  seen : WpTable

/-- The file `monitor`: the tables that it reports, its buffer, and what the readers have got. -/
structure MonitorFile where
  bp : Bp
  wp : WpTable
  /-- The reader in `bp_monitor`, which has `bp_lock`. -/
  holder : Option Nat
  /-- `mon_buf`. -/
  monBuf : Nat → Char
  /-- The call of `mon_update` that each open file is in. -/
  call : Nat → Option MonitorCall
  /-- The position of each open file. -/
  ppos : Nat → Nat
  /-- What each has been handed out since it was opened. -/
  got : Nat → List Char

/-- What happens to the file and to the tables that it reports. -/
inductive MonitorEvent where
  /-- A section under `bp_lock` changes the breakpoints. -/
  | locked (bp : Bp)
  /-- `bp_init`, which does not take the lock, changes them. -/
  | init (bp : Bp)
  /-- The watchpoints change. -/
  | slots (wp : WpTable)
  /-- A reader opens the file. -/
  | opened (file : Nat)
  /-- A read at the start of the file calls `mon_update`. -/
  | begin (file : Nat)
  /-- The call of `mon_update` takes its next step. -/
  | next (file : Nat)
  /-- The call reads a value for the line of a slot; the compiler chooses the order. -/
  | column (file : Nat) (c : SlotColumn)
  /-- `simple_read_from_buffer`, when `mon_update` has returned or has not been called. -/
  | read (file count : Nat)

/-- `sprintf(mon_buf + cur, ...)`. -/
def printInto (buffer : Nat → Char) (cur : Nat) (text : List Char) (k : Nat) : Char :=
  (((⟨fun _ => none, cur⟩ : PrintBuffer).print text).chars k).getD (buffer k)

namespace MonitorFile

/-- The call of a reader prints and goes on. -/
def print (s : MonitorFile) (file : Nat) (call : MonitorCall) (text : List Char) (pc : MonitorPc) :
    MonitorFile :=
  { s with
    monBuf := printInto s.monBuf call.cur text
    call := Function.update s.call file (some { call with pc, cur := call.cur + text.length }) }

/-- The next step of `mon_update`, except those that read a value for a line. -/
def updateStep (s : MonitorFile) (file : Nat) (call : MonitorCall) : Option MonitorFile :=
  match call.pc with
  | .entry i =>
    if (i : Int) < s.bp.bpCount then
      some (s.print file call (breakpointText i (s.bp.bpAddr i)) (.state i))
    else
      some { s.print file call "Watchpoint status:\n".toList (.slot 0) with holder := none }
  | .state i => some (s.print file call (stateText (s.bp.bpState i)) (.entry (i + 1)))
  | .slot i =>
    if inside : i < 4 then
      let seen := s.wp.readUsage ⟨i, inside⟩ call.seen
      if s.wp.wpUsage ⟨i, inside⟩ then
        some { s with
          call := Function.update s.call file
            (some { call with pc := .line ⟨i, inside⟩ [.addr, .length, .iswrite], seen }) }
      else some (s.print file { call with seen } (slotText seen ⟨i, inside⟩) (.slot (i + 1)))
    else
      some { s with
        monBuf := Function.update s.monBuf call.cur nul
        call := Function.update s.call file (some { call with pc := .done }) }
  | .line i [] => some (s.print file call (slotText call.seen i) (.slot (i + 1)))
  | .line _ (_ :: _) | .done => none

/-- `simple_read_from_buffer` at the position of an open file. -/
def handOut (s : MonitorFile) (file count : Nat) : MonitorFile :=
  let (out, pos) := simpleReadFromBuffer s.monBuf MON_BUF_SIZE (s.ppos file) count
  { s with
    call := Function.update s.call file none
    ppos := Function.update s.ppos file pos
    got := Function.update s.got file (s.got file ++ out) }

/-- Take one event. -/
def step (s : MonitorFile) : MonitorEvent → Option MonitorFile
  | .locked bp => if s.holder = none then some { s with bp } else none
  | .init bp => some { s with bp }
  | .slots wp => some { s with wp }
  | .opened file =>
    if (s.call file).isNone then
      some { s with
        ppos := Function.update s.ppos file 0
        got := Function.update s.got file [] }
    else none
  | .begin file =>
    if (s.call file).isNone ∧ s.ppos file = 0 ∧ s.holder = none then
      some { s.print file ⟨.entry 0, 0, .loaded⟩ "Breakpoint status:\n".toList (.entry 0) with
        holder := some file }
    else none
  | .next file => (s.call file).bind (s.updateStep file)
  | .column file c =>
    match s.call file with
    | some ⟨.line i left, cur, seen⟩ =>
      if c ∈ left then
        some { s with
          call := Function.update s.call file
            (some ⟨.line i (left.erase c), cur, c.read i s.wp seen⟩) }
      else none
    | _ => none
  | .read file count =>
    match s.call file with
    | some ⟨.done, _, _⟩ => some (s.handOut file count)
    | some _ => none
    | none => if s.ppos file = 0 then none else some (s.handOut file count)

end MonitorFile

/-! ## What has been printed -/

/-- What the lines of the entries below some number are. -/
def entriesText (bp : Bp) (n : Nat) : List Char :=
  (List.range n).flatMap fun i => breakpointText i (bp.bpAddr i) ++ stateText (bp.bpState i)

/-- What the lines of the slots below some number are. -/
def slotsText (t : WpTable) (n : Nat) : List Char := ((List.finRange 4).take n).flatMap (slotText t)

/-- The breakpoint part of the report, with the heading of the other part. -/
def breakpointPart (bp : Bp) : List Char :=
  "Breakpoint status:\n".toList ++ entriesText bp bp.bpCount.toNat ++
    "Watchpoint status:\n".toList

/-- What has been printed when a call has come so far. -/
def printedText (bp : Bp) (seen : WpTable) : MonitorPc → List Char
  | .entry i => "Breakpoint status:\n".toList ++ entriesText bp i
  | .state i =>
    "Breakpoint status:\n".toList ++ entriesText bp i ++ breakpointText i (bp.bpAddr i)
  | .slot i => breakpointPart bp ++ slotsText seen i
  | .line i _ => breakpointPart bp ++ slotsText seen i
  | .done => monReport bp seen

/-- A text stands at the start of a buffer, with its end; behind it stands what was there before. -/
def written (text : List Char) (before : Nat → Char) (k : Nat) : Char :=
  (text ++ [nul])[k]?.getD (before k)

/-- What is printed at the end of a text is appended to it. -/
theorem printInto_written (text more : List Char) (before : Nat → Char) :
    printInto (written text before) text.length more = written (text ++ more) before := by
  funext k
  rw [printInto, PrintBuffer.print]
  show (if text.length ≤ k ∧ k ≤ text.length + more.length then
    (more ++ [nul])[k - text.length]? else none).getD (written text before k) = _
  rw [written, written]
  by_cases first : k < text.length
  · rw [if_neg (by omega), Option.getD_none, List.append_assoc, List.getElem?_append_left first,
      List.getElem?_append_left first]
  · have later : (text ++ (more ++ [nul]))[k]? = (more ++ [nul])[k - text.length]? :=
      List.getElem?_append_right (by omega)
    rw [List.append_assoc, later]
    by_cases inside : k ≤ text.length + more.length
    · rw [if_pos ⟨by omega, inside⟩]
      have here : k - text.length < (more ++ [nul]).length := by
        rw [List.length_append, List.length_singleton]
        omega
      rw [List.getElem?_eq_getElem here]
      rfl
    · rw [if_neg (by omega), Option.getD_none, List.getElem?_eq_none (by simp; omega),
        List.getElem?_eq_none (by simp; omega)]

/-- The first text is printed at the start. -/
theorem printInto_start (text : List Char) (before : Nat → Char) :
    printInto before 0 text = written text before := by
  funext k
  rw [printInto, PrintBuffer.print]
  show (if 0 ≤ k ∧ k ≤ 0 + text.length then (text ++ [nul])[k - 0]? else none).getD (before k) = _
  rw [written, Nat.sub_zero]
  by_cases inside : k ≤ text.length
  · rw [if_pos ⟨Nat.zero_le k, by omega⟩]
  · rw [if_neg (by omega), List.getElem?_eq_none (by simp; omega)]

/-- The end of a text in the buffer can be written again. -/
theorem update_written (text : List Char) (before : Nat → Char) :
    Function.update (written text before) text.length nul = written text before := by
  refine Function.update_eq_self_iff.mpr ?_
  rw [written, List.getElem?_concat_length]
  rfl

/-- The lines of one more entry end with its own line. -/
theorem entriesText_succ (bp : Bp) (i : Nat) :
    entriesText bp (i + 1) =
      entriesText bp i ++ breakpointText i (bp.bpAddr i) ++ stateText (bp.bpState i) := by
  rw [entriesText, List.range_succ, List.flatMap_append, List.flatMap_singleton, List.append_assoc,
    entriesText]

/-- The lines of one more slot end with its own line. -/
theorem slotsText_succ (t : WpTable) (i : Fin 4) :
    slotsText t (i + 1) = slotsText t i ++ slotText t i := by
  have here : (List.finRange 4)[i.val]? = some i := by
    rw [List.getElem?_eq_getElem (by simp [i.isLt]), List.getElem_finRange]
    rfl
  rw [slotsText, List.take_add_one, here, List.flatMap_append, Option.toList_some,
    List.flatMap_singleton, slotsText]

/-- Slots that have been read the same are printed the same. -/
theorem slotsText_congr {t t' : WpTable} {n : Nat}
    (same : ∀ i : Fin 4, i.val < n → slotText t i = slotText t' i) :
    slotsText t n = slotsText t' n := by
  refine List.flatMap_congr fun i member => ?_
  obtain ⟨k, below, rfl⟩ := List.mem_take_iff_getElem.mp member
  rw [List.getElem_finRange] at *
  exact same _ (by simp at below ⊢; omega)

/-! ## One call of `mon_update` -/

/-- What has been read of a slot are values that some of the tables have. -/
structure Glimpsed (tables : Set WpTable) (seen : WpTable) (i : Fin 4) (left : List SlotColumn) :
    Prop where
  usage : ∃ t ∈ tables, t.wpUsage i = seen.wpUsage i
  columns : seen.wpUsage i = true → ∀ c, c ∉ left → ∃ t ∈ tables, c.Same i t seen

/-- What has been read of a slot is as well among the values of more tables. -/
theorem Glimpsed.mono {tables tables' : Set WpTable} {seen : WpTable} {i : Fin 4}
    {left : List SlotColumn} (glimpsed : Glimpsed tables seen i left) (more : tables ⊆ tables') :
    Glimpsed tables' seen i left := by
  constructor
  · obtain ⟨t, member, same⟩ := glimpsed.usage
    exact ⟨t, more member, same⟩
  · intro used c read
    obtain ⟨t, member, same⟩ := glimpsed.columns used c read
    exact ⟨t, more member, same⟩

/-- Reading a value of another slot changes nothing in this one. -/
theorem Glimpsed.read_other {tables : Set WpTable} {seen t : WpTable} {i j : Fin 4}
    {left : List SlotColumn} (glimpsed : Glimpsed tables seen i left) (other : i ≠ j)
    (c : SlotColumn) : Glimpsed tables (c.read j t seen) i left := by
  have usage : (c.read j t seen).wpUsage i = seen.wpUsage i := by cases c <;> rfl
  have same (u : WpTable) (d : SlotColumn) (here : d.Same i u seen) :
      d.Same i u (c.read j t seen) := by
    cases d <;> cases c <;>
      simp only [SlotColumn.Same, SlotColumn.read, Function.update_of_ne other] at here ⊢ <;>
      exact here
  constructor
  · rw [usage]
    exact glimpsed.usage
  · intro used d read
    obtain ⟨u, member, here⟩ := glimpsed.columns (usage.symm.trans used) d read
    exact ⟨u, member, same u d here⟩

/-- A value that is read of the slot itself is one that the table has. -/
theorem Glimpsed.read_own {tables : Set WpTable} {seen t : WpTable} {i : Fin 4}
    {left : List SlotColumn} (glimpsed : Glimpsed tables seen i left) (member : t ∈ tables)
    (c : SlotColumn) : Glimpsed tables (c.read i t seen) i (left.erase c) := by
  have usage : (c.read i t seen).wpUsage i = seen.wpUsage i := by cases c <;> rfl
  constructor
  · rw [usage]
    exact glimpsed.usage
  · intro used d read
    by_cases own : d = c
    · subst own
      refine ⟨t, member, ?_⟩
      cases d <;> simp [SlotColumn.Same, SlotColumn.read]
    · have before : d ∉ left := fun inside => read ((List.mem_erase_of_ne own).mpr inside)
      obtain ⟨u, there, here⟩ := glimpsed.columns (usage.symm.trans used) d before
      refine ⟨u, there, ?_⟩
      cases d <;> cases c <;> first | exact absurd rfl own | exact here

/-- Reading whether another slot is in use changes nothing in this one. -/
theorem Glimpsed.usage_other {tables : Set WpTable} {seen t : WpTable} {i j : Fin 4}
    {left : List SlotColumn} (glimpsed : Glimpsed tables seen i left) (other : i ≠ j) :
    Glimpsed tables (t.readUsage j seen) i left := by
  have usage : (t.readUsage j seen).wpUsage i = seen.wpUsage i := Function.update_of_ne other ..
  constructor
  · rw [usage]
    exact glimpsed.usage
  · intro used d read
    exact glimpsed.columns (usage.symm.trans used) d read

/-- Whether the slot itself is in use is read from the table. -/
theorem glimpsed_usage {tables : Set WpTable} {seen t : WpTable} {i : Fin 4}
    (member : t ∈ tables) :
    Glimpsed tables (t.readUsage i seen) i [.addr, .length, .iswrite] := by
  have usage : (t.readUsage i seen).wpUsage i = t.wpUsage i := Function.update_self ..
  constructor
  · exact ⟨t, member, usage.symm⟩
  · intro _ c unread
    cases c <;> simp at unread

/-- How far a call has come, and what it has read on its way. -/
def InPlace (reader : Nat) (bp : Bp) (tables : Set WpTable) (s : MonitorFile) (seen : WpTable) :
    MonitorPc → Prop
  | .entry i => s.holder = some reader ∧ s.bp = bp ∧ i ≤ bp.bpCount.toNat
  | .state i => s.holder = some reader ∧ s.bp = bp ∧ i < bp.bpCount.toNat
  | .slot n => n ≤ 4 ∧ ∀ i : Fin 4, i.val < n → Glimpsed tables seen i []
  | .line i left => seen.wpUsage i = true ∧ Glimpsed tables seen i left ∧
      ∀ j : Fin 4, j.val < i.val → Glimpsed tables seen j []
  | .done => ∀ i, Glimpsed tables seen i []

/-- A reader is in `mon_update`, and no other one is. -/
structure Updating (reader : Nat) (bp : Bp) (before : Nat → Char) (tables : Set WpTable)
    (s : MonitorFile) (call : MonitorCall) : Prop where
  begun : s.call reader = some call
  others : ∀ file, file ≠ reader → s.call file = none
  ppos : s.ppos reader = 0
  got : s.got reader = []
  cur : call.cur = (printedText bp call.seen call.pc).length
  monBuf : s.monBuf = written (printedText bp call.seen call.pc) before
  place : InPlace reader bp tables s call.seen call.pc

section

variable {reader : Nat} {bp : Bp} {before : Nat → Char} {tables : Set WpTable}
  {s t : MonitorFile} {call : MonitorCall}

/-- Where a call has come does not depend on the watchpoints, nor on the breakpoints once they have
been printed. -/
theorem InPlace.congr {seen : WpTable} {pc : MonitorPc}
    (place : InPlace reader bp tables s seen pc)
    (holder : s.holder = some reader → t.holder = some reader ∧ t.bp = s.bp) :
    InPlace reader bp tables t seen pc := by
  cases pc with
  | entry i =>
    obtain ⟨held, same, inside⟩ := place
    exact ⟨(holder held).1, (holder held).2.trans same, inside⟩
  | state i =>
    obtain ⟨held, same, inside⟩ := place
    exact ⟨(holder held).1, (holder held).2.trans same, inside⟩
  | slot | line | done => exact place

/-- A step that does not touch the call, the buffer and the reader leaves the call in its place. -/
theorem Updating.congr (here : Updating reader bp before tables s call)
    (holder : s.holder = some reader → t.holder = some reader ∧ t.bp = s.bp)
    (calls : ∀ file, t.call file = s.call file) (monBuf : t.monBuf = s.monBuf)
    (ppos : t.ppos reader = s.ppos reader) (got : t.got reader = s.got reader) :
    Updating reader bp before tables t call :=
  ⟨(calls reader).trans here.begun, fun file other => (calls file).trans (here.others file other),
    ppos.trans here.ppos, got.trans here.got, here.cur, monBuf.trans here.monBuf,
    here.place.congr holder⟩

/-- What the call prints is appended to what has been printed. -/
theorem Updating.print (here : Updating reader bp before tables s call) {seen : WpTable}
    {pc : MonitorPc} {text : List Char}
    (appended : printedText bp seen pc = printedText bp call.seen call.pc ++ text)
    (place : InPlace reader bp tables (s.print reader { call with seen } text pc) seen pc) :
    Updating reader bp before tables (s.print reader { call with seen } text pc)
      ⟨pc, call.cur + text.length, seen⟩ := by
  constructor
  · exact Function.update_self ..
  · intro file other
    exact (Function.update_of_ne other ..).trans (here.others file other)
  · exact here.ppos
  · exact here.got
  · rw [appended, List.length_append, here.cur]
  · show printInto s.monBuf call.cur text = _
    rw [here.monBuf, here.cur, printInto_written, appended]
  · exact place

/-- A slot is printed from its own columns. -/
theorem slotText_congr {t t' : WpTable} {i : Fin 4} (usage : t.wpUsage i = t'.wpUsage i)
    (columns : ∀ c : SlotColumn, c.Same i t t') : slotText t i = slotText t' i := by
  have addr : t.wpAddr i = t'.wpAddr i := columns .addr
  have length : t.wpLength i = t'.wpLength i := columns .length
  have iswrite : t.wpIswrite i = t'.wpIswrite i := columns .iswrite
  rw [slotText, slotText, usage, addr, length, iswrite]

/-- Reading whether a slot is in use leaves what is printed of the slots before it. -/
theorem slotsText_readUsage (t seen : WpTable) (i : Fin 4) :
    slotsText (t.readUsage i seen) i = slotsText seen i :=
  slotsText_congr fun j below =>
    slotText_congr (Function.update_of_ne (Fin.ne_of_lt below) ..) fun c => by cases c <;> rfl

/-- Reading a value of a slot leaves what is printed of the slots before it. -/
theorem slotsText_read (t seen : WpTable) (i : Fin 4) (c : SlotColumn) :
    slotsText (c.read i t seen) i = slotsText seen i := by
  refine slotsText_congr fun j below => ?_
  have other : j ≠ i := Fin.ne_of_lt below
  refine slotText_congr (by cases c <;> rfl) fun d => ?_
  cases d <;> cases c <;> simp [SlotColumn.Same, SlotColumn.read, other]

/-- A call that goes on without printing anything is in its new place. -/
theorem Updating.move {pc pc' : MonitorPc} {cur : Nat} {seen seen' : WpTable}
    (here : Updating reader bp before tables s ⟨pc, cur, seen⟩)
    (same : printedText bp seen' pc' = printedText bp seen pc)
    (place : InPlace reader bp tables s seen' pc') :
    Updating reader bp before tables
      { s with call := Function.update s.call reader (some ⟨pc', cur, seen'⟩) }
      ⟨pc', cur, seen'⟩ := by
  refine ⟨Function.update_self .., fun file other => ?_, here.ppos, here.got, ?_, ?_,
    place.congr fun held => ⟨held, rfl⟩⟩
  · exact (Function.update_of_ne other ..).trans (here.others file other)
  · exact here.cur.trans (congrArg List.length same.symm)
  · exact here.monBuf.trans (congrArg (written · before) same.symm)

/-- A step of `bp_monitor` before the test of its loop: the line of an entry is begun, or the lock
is given back and the heading of the slots printed. -/
theorem Updating.entry {i cur : Nat} {seen : WpTable}
    (here : Updating reader bp before tables s ⟨.entry i, cur, seen⟩)
    (stepped : s.updateStep reader ⟨.entry i, cur, seen⟩ = some t) :
    ∃ call', Updating reader bp before tables t call' := by
  obtain ⟨held, same, inside⟩ := here.place
  by_cases below : (i : Int) < s.bp.bpCount
  · simp only [MonitorFile.updateStep, if_pos below] at stepped
    cases stepped
    refine ⟨_, here.print ?_ ⟨held, same, ?_⟩⟩
    · rw [same]
      rfl
    · rw [same] at below
      omega
  · simp only [MonitorFile.updateStep, if_neg below] at stepped
    cases stepped
    have last : i = bp.bpCount.toNat := by
      rw [same] at below
      omega
    have heading : printedText bp seen (.slot 0) =
        printedText bp seen (.entry i) ++ "Watchpoint status:\n".toList := by
      rw [last]
      exact List.append_nil _
    have printed := here.print heading
      ⟨Nat.zero_le 4, fun j below => absurd below (Nat.not_lt_zero _)⟩
    exact ⟨_, printed.begun, printed.others, printed.ppos, printed.got, printed.cur,
      printed.monBuf, printed.place⟩

/-- A step of `wp_monitor` before the test of its loop, at a slot: its line is begun if it is in
use, and printed if it is not. -/
theorem Updating.slot {cur : Nat} {seen : WpTable} (i : Fin 4)
    (here : Updating reader bp before tables s ⟨.slot i, cur, seen⟩) (member : s.wp ∈ tables)
    (stepped : s.updateStep reader ⟨.slot i, cur, seen⟩ = some t) :
    ∃ call', Updating reader bp before tables t call' := by
  obtain ⟨most, each⟩ := here.place
  simp only [MonitorFile.updateStep, dif_pos i.isLt] at stepped
  have old (j : Fin 4) (below : j < i) : Glimpsed tables (s.wp.readUsage i seen) j [] :=
    (each j below).usage_other (Fin.ne_of_lt below)
  have lower := slotsText_readUsage s.wp seen i
  have usage : (s.wp.readUsage i seen).wpUsage i = s.wp.wpUsage i := Function.update_self ..
  by_cases used : s.wp.wpUsage i = true
  · rw [if_pos used] at stepped
    cases stepped
    exact ⟨_, here.move (congrArg (breakpointPart bp ++ ·) lower)
      ⟨usage.trans used, glimpsed_usage member, old⟩⟩
  · rw [if_neg used] at stepped
    cases stepped
    refine ⟨_, here.print ?_ ⟨i.isLt, fun j below => ?_⟩⟩
    · show breakpointPart bp ++ slotsText _ (i + 1) = breakpointPart bp ++ slotsText seen i ++ _
      rw [slotsText_succ, lower, List.append_assoc]
    · rcases Nat.lt_succ_iff_lt_or_eq.mp below with earlier | own
      · exact old j earlier
      · obtain rfl := Fin.ext own
        exact ⟨⟨s.wp, member, usage.symm⟩, fun now => absurd (usage.symm.trans now) used⟩

/-- Behind the last slot `mon_update` ends the text. -/
theorem Updating.last {cur : Nat} {seen : WpTable}
    (here : Updating reader bp before tables s ⟨.slot 4, cur, seen⟩) :
    Updating reader bp before tables
      { s with
        monBuf := Function.update s.monBuf cur nul
        call := Function.update s.call reader (some ⟨.done, cur, seen⟩) }
      ⟨.done, cur, seen⟩ := by
  have moved : Updating reader bp before tables
      { s with call := Function.update s.call reader (some ⟨.done, cur, seen⟩) }
      ⟨.done, cur, seen⟩ := here.move rfl fun j => here.place.2 j j.isLt
  refine ⟨moved.begun, moved.others, moved.ppos, moved.got, moved.cur, ?_, moved.place⟩
  show Function.update s.monBuf cur nul = written (monReport bp seen) before
  rw [here.monBuf, show cur = (monReport bp seen).length from here.cur]
  exact update_written ..

/-- The line of a slot is printed when all of its values have been read. -/
theorem Updating.line {i : Fin 4} {cur : Nat} {seen : WpTable}
    (here : Updating reader bp before tables s ⟨.line i [], cur, seen⟩) :
    Updating reader bp before tables
      (s.print reader ⟨.line i [], cur, seen⟩ (slotText seen i) (.slot (i + 1)))
      ⟨.slot (i + 1), cur + (slotText seen i).length, seen⟩ := by
  obtain ⟨used, own, each⟩ := here.place
  refine here.print ?_ ⟨i.isLt, fun j below => ?_⟩
  · show breakpointPart bp ++ slotsText seen (i + 1) = breakpointPart bp ++ slotsText seen i ++ _
    rw [slotsText_succ, List.append_assoc]
  · rcases Nat.lt_succ_iff_lt_or_eq.mp below with earlier | same
    · exact each j earlier
    · exact Fin.ext same ▸ own

/-- Every step of the call leads from one place to the next. -/
theorem Updating.next (here : Updating reader bp before tables s call) (member : s.wp ∈ tables)
    (stepped : s.updateStep reader call = some t) :
    ∃ call', Updating reader bp before tables t call' := by
  obtain ⟨pc, cur, seen⟩ := call
  cases pc with
  | entry i => exact here.entry stepped
  | state i =>
    obtain ⟨held, same, inside⟩ := here.place
    cases stepped
    refine ⟨_, here.print ?_ ⟨held, same, inside⟩⟩
    show "Breakpoint status:\n".toList ++ entriesText bp (i + 1) =
      "Breakpoint status:\n".toList ++ entriesText bp i ++ breakpointText i (bp.bpAddr i) ++ _
    rw [same, entriesText_succ, List.append_assoc, List.append_assoc, List.append_assoc]
  | slot i =>
    by_cases inside : i < 4
    · exact here.slot ⟨i, inside⟩ member stepped
    · obtain rfl : i = 4 := Nat.le_antisymm here.place.1 (Nat.not_lt.mp inside)
      simp only [MonitorFile.updateStep, dif_neg inside] at stepped
      cases stepped
      exact ⟨_, here.last⟩
  | line i left =>
    cases left with
    | nil =>
      cases stepped
      exact ⟨_, here.line⟩
    | cons => contradiction
  | done => contradiction

/-- A value that the call reads for a line is one that the table has. -/
theorem Updating.column {i : Fin 4} {left : List SlotColumn} {cur : Nat} {seen : WpTable}
    (here : Updating reader bp before tables s ⟨.line i left, cur, seen⟩) (member : s.wp ∈ tables)
    (c : SlotColumn) :
    Updating reader bp before tables
      { s with
        call := Function.update s.call reader
          (some ⟨.line i (left.erase c), cur, c.read i s.wp seen⟩) }
      ⟨.line i (left.erase c), cur, c.read i s.wp seen⟩ := by
  obtain ⟨used, own, each⟩ := here.place
  have usage : (c.read i s.wp seen).wpUsage i = seen.wpUsage i := by cases c <;> rfl
  refine here.move (congrArg (breakpointPart bp ++ ·) (slotsText_read s.wp seen i c)) ?_
  exact ⟨usage.trans used, own.read_own member c,
    fun j below => (each j below).read_other (Fin.ne_of_lt below) c⟩

end

end Drddr
