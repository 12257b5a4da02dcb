import Drddr.Machine.Lines
import Drddr.Monitor

/-!
# What the report says

The report is the state of the two tables in another form: it says how many entries there are, the
address and the state of each, which slots are in use, and what these watch.
-/

namespace Drddr

open Machine

/-- The state of an entry, without the end of its line. -/
def stateName : BpState → String
  | .UNUSED => "UNUSED"
  | .USING => "USING"
  | .TRIGGERED => "TRIGGERED"

/-- The line of an entry, without its end. -/
def breakpointLine (i : Nat) (addr : Word) (state : BpState) : List Char :=
  breakpointText i addr ++ (stateName state).toList

/-- The line of a slot, without its end. -/
def slotLine (t : WpTable) (i : Fin 4) : List Char :=
  if t.wpUsage i then
    "    DR".toList ++ decimal i.val ++ " watching ".toList ++ hex16 ' ' (t.wpAddr i) ++
      " len ".toList ++ decimal (t.wpLength i) ++ " mode ".toList ++
      [if t.wpIswrite i then 'W' else 'R']
  else "    DR".toList ++ decimal i.val ++ " unused".toList

/-- The lines of the report. -/
def reportLines (bp : Bp) (t : WpTable) : List (List Char) :=
  ["Breakpoint status:".toList] ++
    (List.range bp.bpCount.toNat).map (fun i => breakpointLine i (bp.bpAddr i) (bp.bpState i)) ++
    ["Watchpoint status:".toList] ++ (List.finRange 4).map (slotLine t)

/-- Two tables of breakpoints list the same addresses in the same states. -/
def Bp.SameStatus (bp bp' : Bp) : Prop :=
  bp.bpCount.toNat = bp'.bpCount.toNat ∧
    ∀ i < bp.bpCount.toNat, bp.bpAddr i = bp'.bpAddr i ∧ bp.bpState i = bp'.bpState i

/-- A slot of two tables of watchpoints is free in both, or it watches the same in both. -/
def WpTable.SameSlot (t t' : WpTable) (i : Fin 4) : Prop :=
  t.wpUsage i = t'.wpUsage i ∧
    (t.wpUsage i = true → t.wpAddr i = t'.wpAddr i ∧ t.wpLength i = t'.wpLength i ∧
      t.wpIswrite i = t'.wpIswrite i)

/-! ## Line by line -/

/-- The end of the line of an entry is its state and a newline. -/
theorem stateText_eq (state : BpState) : stateText state = (stateName state).toList ++ ['\n'] := by
  cases state with
  | UNUSED => exact (by simp : "UNUSED\n".toList = "UNUSED".toList ++ ['\n'])
  | USING => exact (by simp : "USING\n".toList = "USING".toList ++ ['\n'])
  | TRIGGERED => exact (by simp : "TRIGGERED\n".toList = "TRIGGERED".toList ++ ['\n'])

/-- The report is its lines. -/
theorem monReport_eq_unlines (bp : Bp) (t : WpTable) :
    monReport bp t = unlines (reportLines bp t) := by
  have entry (i : Nat) : breakpointText i (bp.bpAddr i) ++ stateText (bp.bpState i) =
      breakpointLine i (bp.bpAddr i) (bp.bpState i) ++ ['\n'] := by
    rw [breakpointLine, List.append_assoc, stateText_eq]
  have slot (i : Fin 4) : slotText t i = slotLine t i ++ ['\n'] := by
    rw [slotText, slotLine]
    split
    · simp
    · simp
  have slots : slotText t = fun i => slotLine t i ++ ['\n'] := funext slot
  have first : "Breakpoint status:\n".toList = "Breakpoint status:".toList ++ ['\n'] := by simp
  have second : "Watchpoint status:\n".toList = "Watchpoint status:".toList ++ ['\n'] := by simp
  unfold monReport reportLines unlines
  simp only [List.flatMap_append, List.flatMap_map, entry, slots, first, second,
    List.flatMap_singleton]

/-- The line of an entry has no control character in it. -/
theorem printable_breakpointLine (i : Nat) (addr : Word) (state : BpState) :
    Printable (breakpointLine i addr state) := by
  have number : Printable (List.leftpad 5 ' ' (decimal i)) :=
    printable_leftpad (by decide) 5 (printable_decimal i)
  have address : Printable (hex16 '0' addr) := printable_hex16 (by decide) addr
  have name : Printable (stateName state).toList := by
    cases state <;> decide
  unfold breakpointLine breakpointText
  simp only [printable_append]
  exact ⟨⟨⟨⟨⟨by decide, number⟩, by decide⟩, address⟩, by decide⟩, name⟩

/-- The line of a slot has no control character in it. -/
theorem printable_slotLine (t : WpTable) (i : Fin 4) : Printable (slotLine t i) := by
  have number := printable_decimal i.val
  have address : Printable (hex16 ' ' (t.wpAddr i)) := printable_hex16 (by decide) (t.wpAddr i)
  have length := printable_decimal (t.wpLength i)
  have mode : Printable [if t.wpIswrite i then 'W' else 'R'] := by
    cases t.wpIswrite i <;> decide
  unfold slotLine
  split
  · simp only [printable_append]
    exact ⟨⟨⟨⟨⟨⟨⟨by decide, number⟩, by decide⟩, address⟩, by decide⟩, length⟩, by decide⟩, mode⟩
  · simp only [printable_append]
    exact ⟨⟨by decide, number⟩, by decide⟩

/-- No line of the report has a control character in it. -/
theorem printable_reportLines (bp : Bp) (t : WpTable) :
    ∀ line ∈ reportLines bp t, Printable line := by
  intro line member
  unfold reportLines at member
  simp only [List.mem_append, List.mem_singleton, List.mem_map] at member
  rcases member with ((rfl | ⟨i, -, rfl⟩) | rfl) | ⟨i, -, rfl⟩
  · decide
  · exact printable_breakpointLine i (bp.bpAddr i) (bp.bpState i)
  · decide
  · exact printable_slotLine t i

/-! ## What a line says -/

/-- The name of a state is its own. -/
theorem stateName_injective {state state' : BpState}
    (same : (stateName state).toList = (stateName state').toList) : state = state' := by
  cases state <;> cases state' <;> first | rfl | simp [stateName] at same

/-- The line of an entry says its address and its state. -/
theorem breakpointLine_injective {i : Nat} {addr addr' : Word} {state state' : BpState}
    (same : breakpointLine i addr state = breakpointLine i addr' state') :
    addr = addr' ∧ state = state' := by
  unfold breakpointLine breakpointText at same
  simp only [List.append_assoc, List.append_cancel_left_eq] at same
  obtain ⟨address, rest⟩ := List.append_inj same (by simp)
  exact ⟨hex16_injective (.inl rfl) address, stateName_injective (List.append_cancel_left rest)⟩

/-- The line of a slot says what it watches, and whether it does. -/
theorem slotLine_eq_iff {t t' : WpTable} {i : Fin 4} :
    slotLine t i = slotLine t' i ↔ t.SameSlot t' i := by
  have apart (rest : List Char) : " unused".toList ≠ " watching ".toList ++ rest := by
    intro same
    have second := congrArg (·[1]?) same
    exact absurd second (by simp)
  unfold slotLine WpTable.SameSlot
  cases used : t.wpUsage i with
  | false =>
    cases used' : t'.wpUsage i with
    | false => simp
    | true =>
      simp only [Bool.false_eq_true, if_false, if_true, List.append_assoc,
        List.append_cancel_left_eq, false_and, iff_false]
      exact apart _
  | true =>
    cases used' : t'.wpUsage i with
    | false =>
      simp only [Bool.false_eq_true, if_false, if_true, List.append_assoc,
        List.append_cancel_left_eq, Bool.true_eq_false, false_and, iff_false]
      exact fun same => apart _ same.symm
    | true =>
      simp only [if_true, List.append_assoc, List.append_cancel_left_eq, true_and, forall_const]
      constructor
      · intro same
        obtain ⟨address, rest⟩ := List.append_inj same (by simp)
        have tail := List.append_cancel_left rest
        obtain ⟨length, mode⟩ := List.append_inj' tail (by simp)
        refine ⟨hex16_injective (.inr rfl) address, decimal_injective length, ?_⟩
        have letter := List.append_cancel_left mode
        cases write : t.wpIswrite i <;> cases write' : t'.wpIswrite i <;>
          simp [write, write'] at letter ⊢
      · rintro ⟨address, length, mode⟩
        rw [address, length, mode]

/-- The report says exactly this: two reports are the same if the same addresses are listed in the
same states and the same slots watch the same, and only then. -/
theorem monReport_eq_iff (bp bp' : Bp) (t t' : WpTable) :
    monReport bp t = monReport bp' t' ↔ bp.SameStatus bp' ∧ ∀ i, t.SameSlot t' i := by
  rw [monReport_eq_unlines, monReport_eq_unlines]
  constructor
  · intro same
    have lines := unlines_injective
      (fun line member => (printable_reportLines bp t line member).newline)
      (fun line member => (printable_reportLines bp' t' line member).newline) same
    unfold reportLines at lines
    obtain ⟨front, slots⟩ := List.append_inj' lines (by simp)
    obtain ⟨entries, -⟩ := List.append_inj' front (by simp)
    have entries := List.append_cancel_left entries
    have number : bp.bpCount.toNat = bp'.bpCount.toNat := by
      simpa using congrArg List.length entries
    refine ⟨⟨number, fun i below => ?_⟩, fun i => ?_⟩
    · rw [number] at entries below
      have line := List.map_inj_left.mp entries i (List.mem_range.mpr below)
      exact breakpointLine_injective line
    · exact slotLine_eq_iff.mp (List.map_inj_left.mp slots i (List.mem_finRange i))
  · rintro ⟨⟨number, entries⟩, slots⟩
    have lines : (List.range bp.bpCount.toNat).map
          (fun i => breakpointLine i (bp.bpAddr i) (bp.bpState i)) =
        (List.range bp'.bpCount.toNat).map
          (fun i => breakpointLine i (bp'.bpAddr i) (bp'.bpState i)) := by
      rw [← number]
      refine List.map_inj_left.mpr fun i member => ?_
      obtain ⟨address, state⟩ := entries i (List.mem_range.mp member)
      rw [address, state]
    have slotLines : (List.finRange 4).map (slotLine t) = (List.finRange 4).map (slotLine t') :=
      List.map_inj_left.mpr fun i _ => slotLine_eq_iff.mpr (slots i)
    unfold reportLines
    rw [lines, slotLines]

end Drddr
