import Drddr.Monitor.Update

/-!
# Reading the monitor

A reader gets the report in pieces, from the buffer that all readers share. Between the pieces the
tables change and other readers come and go.
-/

namespace Drddr

open Machine

/-- A reader has got the front of a report that is still in the buffer. -/
structure Reads (reader : Nat) (bp : Bp) (before : Nat → Char) (seen : WpTable) (s : MonitorFile) :
    Prop where
  others : ∀ file, s.call file = none
  monBuf : s.monBuf = written (monReport bp seen) before
  got : s.got reader = front s.monBuf (s.ppos reader)

namespace MonitorFile

/-- The event leaves the report of a reader alone: it does not open its file again, it begins no
other report, and it is no write of `bp_init` while `bp_monitor` prints this one. -/
def Spares (reader : Nat) (s : MonitorFile) : MonitorEvent → Prop
  | .init _ => s.holder ≠ some reader
  | .opened file => file ≠ reader
  | .begin _ => False
  | _ => True

instance (reader : Nat) (s : MonitorFile) :
    (event : MonitorEvent) → Decidable (Spares reader s event)
  | .init _ => inferInstanceAs (Decidable (_ ≠ _))
  | .opened _ => inferInstanceAs (Decidable (_ ≠ _))
  | .begin _ => inferInstanceAs (Decidable False)
  | .locked _ | .slots _ | .next _ | .column _ _ | .read _ _ => inferInstanceAs (Decidable True)

end MonitorFile

section

variable {reader : Nat} {bp : Bp} {before : Nat → Char} {tables : Set WpTable}
  {s t : MonitorFile} {call : MonitorCall}

/-- When `mon_update` has returned, the reader is handed out the front of its report. -/
theorem Updating.handOut {cur : Nat} {seen : WpTable}
    (here : Updating reader bp before tables s ⟨.done, cur, seen⟩) (count : Nat) :
    Reads reader bp before seen (s.handOut reader count) := by
  refine ⟨fun other => ?_, here.monBuf, ?_⟩
  · by_cases same : other = reader
    · subst same
      exact Function.update_self ..
    · exact (Function.update_of_ne same ..).trans (here.others other same)
  · show Function.update s.got reader _ reader =
      front s.monBuf (Function.update s.ppos reader _ reader)
    rw [Function.update_self, Function.update_self, here.got, here.ppos]
    exact front_read s.monBuf MON_BUF_SIZE 0 count

/-- What another reader is handed out leaves the call in its place. -/
theorem Updating.handOut_other {file : Nat} (here : Updating reader bp before tables s call)
    (own : file ≠ reader) (count : Nat) :
    Updating reader bp before tables (s.handOut file count) call := by
  refine here.congr (fun held => ⟨held, rfl⟩) (fun third => ?_) rfl
    (Function.update_of_ne own.symm ..) (Function.update_of_ne own.symm ..)
  by_cases same : third = file
  · subst same
    exact (Function.update_self ..).trans (here.others third own).symm
  · exact Function.update_of_ne same ..

/-- What an event leads to while the reader is in `mon_update`: the call goes on, or it has returned
and the first piece is handed out. -/
theorem Updating.step {event : MonitorEvent} (here : Updating reader bp before tables s call)
    (member : s.wp ∈ tables) (spared : MonitorFile.Spares reader s event)
    (stepped : s.step event = some t) :
    (∃ call', Updating reader bp before tables t call') ∨
      ∃ seen, (∀ i, Glimpsed tables seen i []) ∧ Reads reader bp before seen t := by
  cases event with
  | locked bp' =>
    obtain ⟨free, same⟩ := Option.ite_none_right_eq_some.mp stepped
    cases same
    refine .inl ⟨call, here.congr (fun held => ?_) (fun _ => rfl) rfl rfl rfl⟩
    exact absurd (free.symm.trans held) (by simp)
  | init bp' =>
    cases stepped
    exact .inl ⟨call, here.congr (fun held => absurd held spared) (fun _ => rfl) rfl rfl rfl⟩
  | slots wp =>
    cases stepped
    exact .inl ⟨call, here.congr (fun held => ⟨held, rfl⟩) (fun _ => rfl) rfl rfl rfl⟩
  | opened file =>
    obtain ⟨-, same⟩ := Option.ite_none_right_eq_some.mp stepped
    cases same
    have other : reader ≠ file := fun same => spared same.symm
    exact .inl ⟨call, here.congr (fun held => ⟨held, rfl⟩) (fun _ => rfl) rfl
      (Function.update_of_ne other ..) (Function.update_of_ne other ..)⟩
  | begin file => exact spared.elim
  | next file =>
    obtain ⟨call', found, moved⟩ := Option.bind_eq_some_iff.mp stepped
    by_cases own : file = reader
    · subst own
      obtain rfl : call = call' := Option.some.inj (here.begun.symm.trans found)
      exact .inl (here.next member moved)
    · exact absurd ((here.others file own).symm.trans found) (by simp)
  | column file c =>
    by_cases own : file = reader
    · subst own
      obtain ⟨pc, cur, seen⟩ := call
      rw [MonitorFile.step, here.begun] at stepped
      cases pc with
      | line i left =>
        obtain ⟨-, same⟩ := Option.ite_none_right_eq_some.mp stepped
        cases same
        exact .inl ⟨_, here.column member c⟩
      | entry | state | slot | done => contradiction
    · rw [MonitorFile.step, here.others file own] at stepped
      contradiction
  | read file count =>
    by_cases own : file = reader
    · subst own
      obtain ⟨pc, cur, seen⟩ := call
      rw [MonitorFile.step, here.begun] at stepped
      cases pc with
      | done =>
        cases stepped
        exact .inr ⟨seen, here.place, here.handOut count⟩
      | entry | state | slot | line => contradiction
    · rw [MonitorFile.step, here.others file own] at stepped
      obtain ⟨-, same⟩ := Option.ite_none_left_eq_some.mp stepped
      cases same
      exact .inl ⟨call, here.handOut_other own count⟩

/-- A step that spares the reader takes nothing from what the reader gets. -/
theorem Reads.step {event : MonitorEvent} {seen : WpTable} (reads : Reads reader bp before seen s)
    (spared : MonitorFile.Spares reader s event) (stepped : s.step event = some t) :
    Reads reader bp before seen t := by
  cases event with
  | locked bp' =>
    obtain ⟨-, same⟩ := Option.ite_none_right_eq_some.mp stepped
    cases same
    exact ⟨reads.others, reads.monBuf, reads.got⟩
  | init | slots =>
    cases stepped
    exact ⟨reads.others, reads.monBuf, reads.got⟩
  | opened file =>
    obtain ⟨-, same⟩ := Option.ite_none_right_eq_some.mp stepped
    cases same
    have other : reader ≠ file := fun same => spared same.symm
    refine ⟨reads.others, reads.monBuf, ?_⟩
    show Function.update s.got file [] reader =
      front s.monBuf (Function.update s.ppos file 0 reader)
    rw [Function.update_of_ne other, Function.update_of_ne other]
    exact reads.got
  | begin file => exact spared.elim
  | next file =>
    rw [MonitorFile.step, reads.others file] at stepped
    contradiction
  | column file c =>
    rw [MonitorFile.step, reads.others file] at stepped
    contradiction
  | read file count =>
    rw [MonitorFile.step, reads.others file] at stepped
    obtain ⟨-, same⟩ := Option.ite_none_left_eq_some.mp stepped
    cases same
    refine ⟨fun other => ?_, reads.monBuf, ?_⟩
    · by_cases same : other = file
      · subst same
        exact Function.update_self ..
      · exact (Function.update_of_ne same ..).trans (reads.others other)
    · show Function.update s.got file _ reader =
        front s.monBuf (Function.update s.ppos file _ reader)
      by_cases own : reader = file
      · subst own
        rw [Function.update_self, Function.update_self, reads.got]
        exact front_read s.monBuf MON_BUF_SIZE (s.ppos reader) count
      · rw [Function.update_of_ne own, Function.update_of_ne own]
        exact reads.got

end

/-! ## A reader and its report -/

/-- There is no end of a string in a report. -/
theorem nul_not_mem_monReport (bp : Bp) (wp : WpTable) : nul ∉ monReport bp wp := by
  rw [monReport_eq_unlines]
  intro inside
  obtain ⟨line, member, here⟩ := List.mem_flatMap.mp inside
  rcases List.mem_append.mp here with text | last
  · exact (printable_reportLines bp wp line member).nul text
  · exact absurd (List.mem_singleton.mp last) (by decide)

/-- The front of a buffer in which a text stands is, as a string, the front of that text. -/
theorem cstr_front_written {text : List Char} (clean : nul ∉ text) (before : Nat → Char)
    (n : Nat) : cstr (front (written text before) n) = text.take n := by
  have whole : ∀ c ∈ text, decide (c ≠ nul) = true := fun c inside =>
    decide_eq_true fun same => clean (same ▸ inside)
  have stands : front (written text before) text.length = text := by
    refine front_of_list fun k inside => ?_
    rw [written, List.getElem?_append_left inside, List.getElem?_eq_getElem inside]
    rfl
  rw [cstr]
  by_cases short : n ≤ text.length
  · rw [← take_front (written text before) short, stands]
    exact List.takeWhile_eq_self_iff.mpr fun c inside => whole c (List.mem_of_mem_take inside)
  · obtain ⟨d, rfl⟩ := Nat.exists_eq_add_of_le' (Nat.lt_of_not_le short)
    have last : written text before text.length = nul := by
      rw [written, List.getElem?_concat_length]
      rfl
    have ends : front (fun k => written text before (text.length + k)) (1 + d) =
        nul :: front (fun k => written text before (text.length + (1 + k))) d := by
      rw [front_add]
      exact congrArg (· :: _) last
    have size : d + (text.length + 1) = text.length + (1 + d) := by omega
    rw [size, front_add, stands, ends, List.takeWhile_append_of_pos whole,
      List.takeWhile_cons_of_neg (by simp), List.append_nil, List.take_of_length_le (by omega)]

/-- The tables of watchpoints that a run passes while a reader is in `mon_update`. -/
def tablesDuring (reader : Nat) (s : MonitorFile) (events : List MonitorEvent) : Set WpTable :=
  {wp | ∃ v, Passes MonitorFile.step s events v ∧ v.call reader ≠ none ∧ v.wp = wp}

/-- A slot that is the same in all tables is read as they say. -/
theorem Glimpsed.sameSlot {tables : Set WpTable} {seen t : WpTable} {i : Fin 4}
    (glimpsed : Glimpsed tables seen i []) (same : ∀ u ∈ tables, u.SameSlot t i) :
    seen.SameSlot t i := by
  obtain ⟨u, member, usage⟩ := glimpsed.usage
  refine ⟨usage.symm.trans (same u member).1, fun used => ?_⟩
  have inUse : t.wpUsage i = true := (same u member).1.symm.trans (usage.trans used)
  have value (v : WpTable) (inside : v ∈ tables) :=
    (same v inside).2 ((same v inside).1.trans inUse)
  have column (c : SlotColumn) : ∃ v ∈ tables, c.Same i v seen :=
    glimpsed.columns used c List.not_mem_nil
  refine ⟨?_, ?_, ?_⟩
  · obtain ⟨v, inside, addr⟩ := column .addr
    exact addr.symm.trans (value v inside).1
  · obtain ⟨v, inside, length⟩ := column .length
    exact length.symm.trans (value v inside).2.1
  · obtain ⟨v, inside, iswrite⟩ := column .iswrite
    exact iswrite.symm.trans (value v inside).2.2

/-- The first step of a report prints its heading. -/
theorem updating_begin {reader : Nat} {s t : MonitorFile} {tables : Set WpTable}
    (fresh : s.ppos reader = 0) (empty : s.got reader = []) (calm : ∀ file, s.call file = none)
    (begun : s.step (.begin reader) = some t) :
    ∃ call, Updating reader s.bp s.monBuf tables t call := by
  obtain ⟨-, same⟩ := Option.ite_none_right_eq_some.mp begun
  cases same
  refine ⟨_, Function.update_self .., fun file other => ?_, fresh, empty, ?_, ?_, rfl, rfl,
    Nat.zero_le _⟩
  · exact (Function.update_of_ne other ..).trans (calm file)
  · rw [Nat.zero_add]
    exact congrArg List.length (List.append_nil _).symm
  · exact (printInto_start _ _).trans (congrArg (written · s.monBuf) (List.append_nil _).symm)

/-- What a reader gets that reads the file from its start, in any pieces, while watchpoints come and
go, entries are changed under their lock, and others read what they have begun: the breakpoints are
those of one state, that at the first read, and every value of a slot is one that the slot had
during the first read. So it is all one state for every slot that does not change during the first
read. What the reader has got is, as a string, so much of that report, and the whole of it at the
end of the file. After the end of the string follows what earlier reports have left there. -/
theorem reader_gets_report (s s' t : MonitorFile) (reader : Nat) (events : List MonitorEvent)
    (fresh : s.ppos reader = 0) (empty : s.got reader = []) (calm : ∀ file, s.call file = none)
    (begun : s.step (.begin reader) = some s')
    (spared : Admits MonitorFile.step (MonitorFile.Spares reader) s' events)
    (ran : run MonitorFile.step s' events = some t) (returned : t.call reader = none)
    (fits : ∀ wp, (∀ i, Glimpsed (tablesDuring reader s' events) wp i []) →
      (monReport s.bp wp).length < MON_BUF_SIZE) :
    ∃ wp, (∀ i, Glimpsed (tablesDuring reader s' events) wp i []) ∧
      (∀ i, (∀ u ∈ tablesDuring reader s' events, u.SameSlot s.wp i) → wp.SameSlot s.wp i) ∧
      cstr (t.got reader) = (monReport s.bp wp).take (t.ppos reader) ∧
      (t.ppos reader = MON_BUF_SIZE → cstr (t.got reader) = monReport s.bp wp) ∧
      ∀ k, (monReport s.bp wp).length < k → k < t.ppos reader →
        (t.got reader)[k]? = some (s.monBuf k) := by
  have outcome : (∃ call, Updating reader s.bp s.monBuf (tablesDuring reader s' events) t call) ∨
      ∃ wp, (∀ i, Glimpsed (tablesDuring reader s' events) wp i []) ∧
        Reads reader s.bp s.monBuf wp t := by
    refine run_passed (I := fun v =>
      (∃ call, Updating reader s.bp s.monBuf (tablesDuring reader s' events) v call) ∨
        ∃ wp, (∀ i, Glimpsed (tablesDuring reader s' events) wp i []) ∧
          Reads reader s.bp s.monBuf wp v) ?_ ?_ spared ran
    · intro u event v passed before allowed stepped
      rcases before with ⟨call, updating⟩ | ⟨wp, glimpsed, reads⟩
      · have within : u.call reader ≠ none := by
          rw [updating.begun]
          exact Option.some_ne_none call
        exact updating.step ⟨u, passed, within, rfl⟩ allowed stepped
      · exact .inr ⟨wp, glimpsed, reads.step allowed stepped⟩
    · exact .inl (updating_begin fresh empty calm begun)
  rcases outcome with ⟨call, updating⟩ | ⟨wp, glimpsed, reads⟩
  · exact absurd (updating.begun.symm.trans returned) (Option.some_ne_none call)
  · have text : cstr (t.got reader) = (monReport s.bp wp).take (t.ppos reader) := by
      rw [reads.got, reads.monBuf]
      exact cstr_front_written (nul_not_mem_monReport s.bp wp) s.monBuf (t.ppos reader)
    refine ⟨wp, glimpsed, fun i same => (glimpsed i).sameSlot same, text, fun last => ?_,
      fun k beyond inside => ?_⟩
    · rw [text, last, List.take_of_length_le (fits wp glimpsed).le]
    · rw [reads.got, reads.monBuf, getElem?_front _ inside, written,
        List.getElem?_eq_none (by rw [List.length_append]; exact beyond)]
      rfl

/-- `mon_update` does not change the table of watchpoints. -/
theorem MonitorFile.updateStep_wp {s t : MonitorFile} {file : Nat} {call : MonitorCall}
    (stepped : s.updateStep file call = some t) : t.wp = s.wp := by
  obtain ⟨pc, cur, seen⟩ := call
  cases pc with
  | entry i =>
    by_cases below : (i : Int) < s.bp.bpCount
    · simp only [MonitorFile.updateStep, if_pos below] at stepped
      cases stepped
      rfl
    · simp only [MonitorFile.updateStep, if_neg below] at stepped
      cases stepped
      rfl
  | state i =>
    cases stepped
    rfl
  | slot i =>
    by_cases inside : i < 4
    · simp only [MonitorFile.updateStep, dif_pos inside] at stepped
      split at stepped <;> cases stepped <;> rfl
    · simp only [MonitorFile.updateStep, dif_neg inside] at stepped
      cases stepped
      rfl
  | line i left =>
    cases left with
    | nil =>
      cases stepped
      rfl
    | cons => contradiction
  | done => contradiction

/-- Nothing but a new table changes the table of watchpoints. -/
theorem MonitorFile.step_wp {s t : MonitorFile} {event : MonitorEvent}
    (stepped : s.step event = some t) : event = .slots t.wp ∨ t.wp = s.wp := by
  cases event with
  | locked bp =>
    obtain ⟨-, same⟩ := Option.ite_none_right_eq_some.mp stepped
    cases same
    exact .inr rfl
  | init bp =>
    cases stepped
    exact .inr rfl
  | slots wp =>
    cases stepped
    exact .inl rfl
  | opened file =>
    obtain ⟨-, same⟩ := Option.ite_none_right_eq_some.mp stepped
    cases same
    exact .inr rfl
  | begin file =>
    obtain ⟨-, same⟩ := Option.ite_none_right_eq_some.mp stepped
    cases same
    exact .inr rfl
  | next file =>
    obtain ⟨call, -, moved⟩ := Option.bind_eq_some_iff.mp stepped
    exact .inr (MonitorFile.updateStep_wp moved)
  | column file c =>
    rw [MonitorFile.step] at stepped
    split at stepped
    · obtain ⟨-, same⟩ := Option.ite_none_right_eq_some.mp stepped
      cases same
      exact .inr rfl
    · contradiction
  | read file count =>
    rw [MonitorFile.step] at stepped
    split at stepped
    · cases stepped
      exact .inr rfl
    · contradiction
    · obtain ⟨-, same⟩ := Option.ite_none_left_eq_some.mp stepped
      cases same
      exact .inr rfl

/-- The tables during a run are the one that it begins with and those that it is given. -/
theorem mem_tablesDuring {reader : Nat} {s : MonitorFile} {events : List MonitorEvent}
    {wp : WpTable} (member : wp ∈ tablesDuring reader s events) :
    wp = s.wp ∨ .slots wp ∈ events := by
  obtain ⟨v, ⟨past, early, ran⟩, -, rfl⟩ := member
  have origin : v.wp = s.wp ∨ .slots v.wp ∈ [] ++ past := by
    refine run_history (I := fun past v => v.wp = s.wp ∨ .slots v.wp ∈ past) ?_ (.inl rfl) ran
    intro past u event w before stepped
    rcases MonitorFile.step_wp stepped with given | same
    · exact .inr (given ▸ List.mem_append_right past (List.mem_singleton_self event))
    · rw [same]
      exact before.imp_right (List.mem_append_left [event])
  rw [List.nil_append] at origin
  exact origin.imp_right fun given => early.subset given

/-- The file when the module has been loaded, with the first slot watching a byte. -/
def watchedMonitor : MonitorFile where
  bp := .loaded noops
  wp := WpTable.loaded.install 0 ⟨0x1000, 8, true, default, 0, []⟩
  holder := none
  monBuf _ := nul
  call _ := none
  ppos _ := 0
  got _ := []

/-- The table in which that slot watches four bytes elsewhere. -/
def rewatched : WpTable := WpTable.loaded.install 0 ⟨0x2000, 32, false, default, 0, []⟩

/-- The steps of a reader that reads the address of the first slot before it is freed and watches
the other bytes, and the rest of it afterwards; that reads ten bytes and then fifty, while another
reader opens the file and an entry is added. -/
def mixedReading : List MonitorEvent :=
  [.next 0, .next 0, .column 0 .addr, .slots .loaded, .slots rewatched, .column 0 .iswrite,
    .column 0 .length, .next 0, .next 0, .next 0, .next 0, .next 0, .read 0 10,
    .locked { Bp.loaded noops with bpCount := 1 }, .opened 1, .read 0 50]

/-- Sixty bytes are the front of a report, though the first slot has at no time been as it says. -/
theorem reader_gets_report_mixed :
    ∃ s t, watchedMonitor.step (.begin 0) = some s ∧ run MonitorFile.step s mixedReading = some t ∧
      t.ppos 0 = 60 ∧
      ∃ wp, (∀ i, Glimpsed (tablesDuring 0 s mixedReading) wp i []) ∧
        cstr (t.got 0) = (monReport (.loaded noops) wp).take 60 := by
  obtain ⟨s, t, begun, same, ran, sixty, returned⟩ : ∃ s t,
      watchedMonitor.step (.begin 0) = some s ∧ s.wp = watchedMonitor.wp ∧
        run MonitorFile.step s mixedReading = some t ∧ t.ppos 0 = 60 ∧ t.call 0 = none :=
    ⟨_, _, rfl, rfl, rfl, rfl, rfl⟩
  have spared : Admits MonitorFile.step (MonitorFile.Spares 0) s mixedReading := by
    refine admits_of_forall ?_ s
    simp [mixedReading, MonitorFile.Spares]
  have digits (u : WpTable) (member : u ∈ tablesDuring 0 s mixedReading) (i : Fin 4) :
      (decimal (u.wpLength i)).length ≤ 2 := by
    rcases mem_tablesDuring member with first | given
    · rw [first, same]
      revert i
      decide
    · have either : u = .loaded ∨ u = rewatched := by
        simpa [mixedReading] using given
      rcases either with rfl | rfl
      · exact (by decide : (decimal 0).length ≤ 2)
      · revert i
        decide
  have fits (wp : WpTable) (glimpsed : ∀ i, Glimpsed (tablesDuring 0 s mixedReading) wp i []) :
      (monReport watchedMonitor.bp wp).length < MON_BUF_SIZE := by
    have short (i : Fin 4) : slotLength wp i ≤ 48 := by
      rw [slotLength]
      split
      · next used =>
        obtain ⟨u, member, length⟩ := (glimpsed i).columns used .length List.not_mem_nil
        rw [← show u.wpLength i = wp.wpLength i from length]
        exact Nat.add_le_add_left (digits u member i) 46
      · decide
    have total := List.sum_le_card_nsmul ((List.finRange 4).map (slotLength wp)) 48 (by
      intro n member
      obtain ⟨i, -, rfl⟩ := List.mem_map.mp member
      exact short i)
    have count : ((List.finRange 4).map (slotLength wp)).length = 4 := by simp
    have room : 38 + 0 + 4 * 48 < MON_BUF_SIZE := by decide
    rw [count] at total
    rw [length_monReport _ _ (by decide)]
    exact (Nat.add_le_add_left total _).trans_lt room
  obtain ⟨wp, glimpsed, -, text, -⟩ := reader_gets_report watchedMonitor s t 0 mixedReading rfl rfl
    (fun _ => rfl) begun spared ran returned fits
  rw [sixty] at text
  exact ⟨s, t, begun, ran, sixty, wp, glimpsed, text⟩

end Drddr
