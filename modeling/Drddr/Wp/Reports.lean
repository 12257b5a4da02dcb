import Drddr.Machine.Rows
import Drddr.Wp.Table

/-!
# Reports without the lock

`debug_drddr` runs on the processor that made the watched access, while others add and remove
watchpoints. `wp_query` takes the slot from the status register of the processor, which nobody
clears, so it may be one of an earlier trap; `wp_report` reads the columns of the slot one after the
other and does not take the lock. Here the sections that `wp_add`, `wp_remove` and `wp_clean` hold
it for are cut into their writes, and `set_dr` into what it does on each processor.
-/

namespace Drddr

open Machine

/-- A column of the table, and a register of the saved ones by its place in `struct pt_regs`. -/
inductive WpCell where
  | addr
  | length
  | iswrite
  | reg (k : Fin 21)
  | num
  | cpuid
  | trace
  deriving DecidableEq

/-- What a column holds. -/
def WpCell.Value : WpCell → Type
  | .addr => Word
  | .length => Int
  | .iswrite => Bool
  | .reg _ => Word
  | .num => BitVec 32
  | .cpuid => Int
  | .trace => List Word

/-- What `wp_add` writes for a request with the next number. -/
def WpRequest.cells (req : WpRequest) (num : BitVec 32) : (c : WpCell) → c.Value
  | .addr => req.dataAddr
  | .length => req.dataLength
  | .iswrite => req.isWrite
  | .reg k => req.regs.words.getD k 0
  | .num => num
  | .cpuid => req.cpuid
  | .trace => req.trace

/-- The columns of a slot. -/
def WpTable.cells (t : WpTable) (i : Fin 4) : (c : WpCell) → c.Value
  | .addr => t.wpAddr i
  | .length => t.wpLength i
  | .iswrite => t.wpIswrite i
  | .reg k => (t.wpRegs i).words.getD k 0
  | .num => t.wpNum i
  | .cpuid => t.wpCpuid i
  | .trace => t.wpTrace i

/-- `drddr_dump`: AX, CX, BX, DX, SI, DI, BP, SP and R8 to R15. -/
def dumped : List (Fin 21) := [10, 11, 5, 12, 13, 14, 4, 19, 9, 8, 7, 6, 3, 2, 1, 0]

/-- What a report says, in the order in which it is printed. -/
def WpReport.cells (r : WpReport) : List (Sigma WpCell.Value) :=
  [⟨.reg 16, r.instructionAddress⟩, ⟨.addr, r.accessedAddress⟩, ⟨.iswrite, r.iswrite⟩,
    ⟨.length, r.length⟩, ⟨.cpuid, r.cpuid⟩] ++
  dumped.map (fun k => ⟨.reg k, r.regs.words.getD k 0⟩) ++ [⟨.trace, r.trace⟩]

/-- The status register after a trap on these slots. -/
def noteDr6 (dr6 : Word) (slots : List (Fin 4)) : Word :=
  slots.foldl (fun dr6 i => dr6 ||| BitVec.twoPow 64 i.val) dr6

/-- The slot that `wp_query` answers with. -/
def queriedSlot (dr6 : Word) : Option (Fin 4) :=
  if (wpQuery dr6).isValid then some (wpQuery dr6).dr else none

/-- The order of `wp_add`, that of `wp_report`, the processors and their status registers. -/
def wpLayout {κ : Type*} (cpus : List κ) : RowLayout (Fin 4) κ WpCell Word where
  columns := [.addr, .length, .iswrite] ++ (List.finRange 21).map .reg ++ [.num, .cpuid, .trace]
  printed := [.reg 16, .addr, .iswrite, .length, .cpuid] ++ dumped.map .reg ++ [.trace]
  cpus := cpus
  note := noteDr6
  query := queriedSlot
  covers := by decide

/-- The table, the lock, the processors and their debug traps. -/
abbrev WpRows (κ : Type*) := Rows (Fin 4) κ Word WpCell.Value

/-- The rows are a table. -/
structure RowsOf {κ : Type*} (t : WpTable) (s : WpRows κ) : Prop where
  used : s.used = t.wpUsage
  cells : s.cell = t.cells

/-- An installation writes the columns of its slot. -/
theorem install_cells_self (t : WpTable) (slot : Fin 4) (req : WpRequest) (c : WpCell) :
    (t.install slot req).cells slot c = req.cells (t.wpTotalCount + 1) c := by
  cases c with
  | reg k =>
    show (Function.update t.wpRegs slot req.regs slot).words.getD k 0 = req.regs.words.getD k 0
    rw [Function.update_self]
  | _ => exact Function.update_self ..

/-- Filling a slot leaves the cells of the others. -/
theorem install_cells_of_ne (t : WpTable) {slot i : Fin 4} (other : i ≠ slot) (req : WpRequest)
    (c : WpCell) : (t.install slot req).cells i c = t.cells i c := by
  cases c with
  | reg k =>
    show (Function.update t.wpRegs slot req.regs i).words.getD k 0 = (t.wpRegs i).words.getD k 0
    rw [Function.update_of_ne other]
  | _ => exact Function.update_of_ne other ..

/-! ## The sections are the calls -/

section

variable {κ : Type*} [DecidableEq κ] {cpus : List κ} {s : WpRows κ} {t : WpTable}

omit [DecidableEq κ] in
/-- Every column is written. -/
theorem mem_columns (c : WpCell) : c ∈ (wpLayout cpus).columns := by
  show c ∈ [.addr, .length, .iswrite] ++ (List.finRange 21).map .reg ++ [.num, .cpuid, .trace]
  cases c with
  | reg k => simp
  | _ => simp

/-- The section of `wp_add`, with nobody else moving, installs the request. -/
theorem wpAdd_section (table : RowsOf t s) (unlocked : s.holder = none) {slot : Fin 4}
    (free : t.freeSlot = some slot) (req : WpRequest) :
    ∃ s', run (rowStep (wpLayout cpus)) s (.fill slot (req.cells (t.wpTotalCount + 1)) ::
        (List.replicate (wpLayout cpus).columns.length .write ++ (cpus.map .tell ++ [.unlock]))) =
          some s' ∧
      RowsOf (t.install slot req) s' ∧ s'.holder = none := by
  have unused : s.used slot = false := by
    rw [table.used]
    exact (WpTable.freeSlot_eq_some.mp free).1
  obtain ⟨s', ran, used, mine, others, -, done, -⟩ :=
    fill_alone (wpLayout cpus) (req.cells (t.wpTotalCount + 1)) unlocked unused
  refine ⟨s', ran, ⟨?_, ?_⟩, done⟩
  · rw [used, table.used]
    rfl
  · funext i c
    by_cases same : i = slot
    · subst same
      rw [mine c (mem_columns c), install_cells_self]
    · rw [others i same, table.cells, install_cells_of_ne t same]

/-- The section of `wp_remove`, if it frees its slot. -/
theorem wpRemove_section (table : RowsOf t s) (unlocked : s.holder = none) (slot : Fin 4) :
    ∃ s', run (rowStep (wpLayout cpus)) s
        (.free [slot] :: .write :: (cpus.map .tell ++ [.unlock])) = some s' ∧
      RowsOf (t.release slot) s' ∧ s'.holder = none := by
  obtain ⟨s', ran, used, cells, -, done⟩ := free_alone (wpLayout cpus) slot unlocked
  refine ⟨s', ran, ⟨?_, ?_⟩, done⟩
  · rw [used, table.used]
    rfl
  · rw [cells, table.cells]
    rfl

end

/-! ## What a report says -/

/-- The report of a request that has just been installed. -/
theorem printed_cells {κ : Type*} (cpus : List κ) (t : WpTable) (slot : Fin 4) (req : WpRequest)
    (num : BitVec 32) :
    ((wpLayout cpus).printed.map fun c => (⟨c, req.cells num c⟩ : Sigma WpCell.Value)) =
      (wpReport (t.install slot req) ⟨slot, 0⟩).cells := by
  have install : wpReport (t.install slot req) ⟨slot, 0⟩ =
      ⟨slot, req.regs.ip, req.dataAddr, req.isWrite, req.dataLength, req.cpuid, req.regs,
        req.trace⟩ := by
    simp [wpReport, WpTable.install]
  rw [install]
  rfl

/-- In every run, with any number of processors adding and removing watchpoints, trapping and
reporting: a report of a slot that is in use when `wp_query` answers with it, that some processor
watches or no `wp_add` is just filling then, and that is not freed until the report is out, is of
one request, the one that the slot was last taken for. -/
theorem report_of_one_request {κ : Type*} [DecidableEq κ] (cpus : List κ) {start s t u : WpRows κ}
    (empty : start.Empty) {past events : List (RowEvent (Fin 4) κ WpCell.Value)}
    (reached : run (rowStep (wpLayout cpus)) start past = some s) {k : Nat} {cpu : κ} {i : Fin 4}
    (entered : s.readers[k]? = some (.entered cpu))
    (asked : rowStep (wpLayout cpus) s (.ask k) = some t)
    (answer : (wpQuery (s.status cpu)).isValid = true ∧ (wpQuery (s.status cpu)).dr = i)
    (used : s.used i = true)
    (settled : (∃ other, s.armed other i = true) ∨
      ∀ c left cpus, s.holder ≠ some (.filling i (c :: left) cpus))
    (keeps : Admits (rowStep (wpLayout cpus)) (fun s event => ¬FreesRow i s event) t events)
    (ran : run (rowStep (wpLayout cpus)) t events = some u) (table : WpTable) {req : WpRequest}
    {num : BitVec 32} (taken : s.record i = req.cells num) :
    ∃ got, u.readers[k]? = some (.reading i got) ∧
      got <+: (wpReport (table.install i req) ⟨i, 0⟩).cells ∧
      (got.length = (wpLayout cpus).printed.length →
        got = (wpReport (table.install i req) ⟨i, 0⟩).cells) := by
  have inv : RowsInvariant (wpLayout cpus) s :=
    @run_invariant _ _ (rowStep (wpLayout cpus)) (RowsInvariant (wpLayout cpus))
      (fun _ _ _ inv stepped => inv.step stepped) past start s empty.invariant reached
  have found : (wpLayout cpus).query (s.status cpu) = some i := by
    show (if (wpQuery (s.status cpu)).isValid then _ else _) = some i
    rw [if_pos answer.1, answer.2]
  have whole : ∀ c left cpus, s.holder ≠ some (.filling i (c :: left) cpus) := by
    rcases settled with ⟨other, armed⟩ | settled
    · exact inv.settled armed
    · exact settled
  obtain ⟨n, most, reads⟩ := asked_reads_record inv entered asked found used whole keeps ran
  refine ⟨_, reads, ?_⟩
  rw [← printed_cells cpus table i req num, taken, List.map_take]
  refine ⟨List.take_prefix _ _, fun whole => ?_⟩
  have size : n = (wpLayout cpus).printed.length := by
    rw [List.length_take, List.length_map, Nat.min_eq_left most] at whole
    exact whole
  rw [size, List.take_of_length_le (Nat.le_of_eq (List.length_map _))]

/-- No watchpoint has been added, with one processor. -/
def noRows : WpRows Unit where
  used _ := false
  cell := WpTable.loaded.cells
  record := WpTable.loaded.cells
  armed _ _ := false
  status _ := 0
  holder := none
  readers := []

/-- A request for a write of four bytes. -/
def wordRequest (addr : Word) : WpRequest where
  dataAddr := addr
  dataLength := 32
  isWrite := true
  regs := default
  cpuid := 0
  trace := []

/-- The first slot is filled, and the processor traps on it. -/
def trapOnFirst : List (RowEvent (Fin 4) Unit WpCell.Value) :=
  (.fill 0 ((wordRequest 0x1000).cells 1) ::
    (List.replicate (wpLayout [()]).columns.length .write ++
      ((wpLayout [()]).cpus.map .tell ++ [.unlock]))) ++ [.trap () [0]]

/-- A whole report while another slot is being filled, a write before every read. -/
def readBeside : List (RowEvent (Fin 4) Unit WpCell.Value) :=
  .fill 1 ((wordRequest 0x2000).cells 2) ::
    (List.replicate (wpLayout [()]).printed.length [.write, .read 0]).flatten

/-- The report of the first slot, all of it, while the second is being filled. -/
theorem report_of_one_request_beside :
    ∃ s t u, run (rowStep (wpLayout [()])) noRows trapOnFirst = some s ∧
      rowStep (wpLayout [()]) s (.ask 0) = some t ∧
      run (rowStep (wpLayout [()])) t readBeside = some u ∧
      u.readers[0]? = some (.reading 0
        (wpReport (WpTable.loaded.install 0 (wordRequest 0x1000)) ⟨0, 0⟩).cells) := by
  obtain ⟨s₀, filled, used, -, -, armed, unlocked, taken, readers, status⟩ :=
    @fill_alone (Fin 4) Unit WpCell Word WpCell.Value _ _ _ (wpLayout [()]) noRows 0
      ((wordRequest 0x1000).cells 1) rfl rfl
  have inUse : s₀.used 0 = true := by
    rw [used]
    rfl
  have told : s₀.armed () 0 = true := by
    rw [armed () List.mem_cons_self]
    exact inUse
  let s : WpRows Unit := { s₀ with
    status := Function.update s₀.status () 1
    readers := [.entered ()] }
  let t : WpRows Unit := { s with readers := [.reading 0 []] }
  let v : WpRows Unit := { t with
    used := Function.update t.used 1 true
    record := Function.update t.record 1 ((wordRequest 0x2000).cells 2)
    holder := some (.filling 1 (wpLayout [()]).columns [()]) }
  have recorded : s.status () = 1 := by
    show Function.update s₀.status () 1 () = 1
    rw [Function.update_self]
  have trapped : rowStep (wpLayout [()]) s₀ (.trap () [0]) = some s := by
    have one : (wpLayout [()]).note (s₀.status ()) [0] = 1 := by
      rw [status]
      decide
    have new : s₀.readers = [] := by rw [readers]; rfl
    simp only [rowStep, List.any_cons, told, Bool.true_or, if_true, one, new]
    rfl
  have asked : rowStep (wpLayout [()]) s (.ask 0) = some t := by
    have slot : (wpLayout [()]).query (s.status ()) = some 0 := by
      rw [recorded]
      decide
    have answer : RowReader.asked (wpLayout [()]) s () = .reading 0 [] := by
      rw [RowReader.asked, slot]
    have here : s.readers[0]? = some (.entered ()) := rfl
    simp only [rowStep, here, answer]
    rfl
  have begun : rowStep (wpLayout [()]) t (.fill 1 ((wordRequest 0x2000).cells 2)) = some v := by
    have unused : t.used 1 = false := by
      show s₀.used 1 = false
      rw [used]
      rfl
    exact if_pos ⟨Option.isNone_iff_eq_none.mpr unlocked, unused⟩
  obtain ⟨u, got, ran, keeps, last, size⟩ := @run_read_beside (Fin 4) Unit WpCell Word
    WpCell.Value _ _ _ (wpLayout [()]) 0 1 0 (wpLayout [()]).printed.length [] _ _ v rfl
    (by decide) rfl (by decide)
  have reached : run (rowStep (wpLayout [()])) noRows trapOnFirst = some s := by
    rw [trapOnFirst, run_append, filled]
    exact run_cons_eq_some.mpr ⟨s, trapped, rfl⟩
  have empty : noRows.Empty := ⟨fun _ => rfl, fun _ _ => rfl, rfl⟩
  obtain ⟨got', here, -, whole⟩ := report_of_one_request [()] empty reached rfl asked
    ⟨by rw [recorded]; decide, by rw [recorded]; decide⟩ inUse (.inl ⟨(), told⟩)
    (admits_cons begun id keeps) (run_cons_eq_some.mpr ⟨v, begun, ran⟩) .loaded taken
  obtain rfl : got = got' := (RowReader.reading.inj (Option.some.inj (last.symm.trans here))).2
  refine ⟨s, t, u, reached, asked, run_cons_eq_some.mpr ⟨v, begun, ran⟩, ?_⟩
  rw [last, whole (size.trans (Nat.zero_add _))]

end Drddr
