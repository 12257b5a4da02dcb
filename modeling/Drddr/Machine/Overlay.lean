import Mathlib.Data.Set.Piecewise

/-!
# Marked overlays

A map with one value overlaid on a set of marked points. Marking a point overwrites it;
unmarking a point writes the base value back. The set of marked points is the whole state
of a component that patches a map and can undo every patch.
-/

namespace Machine

open Classical in
/-- The base map with `mark` overlaid on the marked points. -/
noncomputable def overlay {α β : Type*} (base : α → β) (mark : β) (marked : Set α) : α → β :=
  marked.piecewise (fun _ => mark) base

variable {α β : Type*} {base : α → β} {mark : β} {marked : Set α}

/-- A marked point shows the mark. -/
theorem overlay_of_mem {a : α} (h : a ∈ marked) : overlay base mark marked a = mark :=
  letI := Classical.decPred (· ∈ marked)
  Set.piecewise_eq_of_mem marked (fun _ => mark) base h

/-- An unmarked point shows the base. -/
theorem overlay_of_notMem {a : α} (h : a ∉ marked) : overlay base mark marked a = base a :=
  letI := Classical.decPred (· ∈ marked)
  Set.piecewise_eq_of_notMem marked (fun _ => mark) base h

/-- With no marks the base shows. -/
@[simp] theorem overlay_empty : overlay base mark ∅ = base :=
  funext fun _ => overlay_of_notMem (Set.notMem_empty _)

variable [DecidableEq α]

/-- Marking one more point overwrites it. -/
theorem update_overlay_insert (a : α) :
    Function.update (overlay base mark marked) a mark = overlay base mark (insert a marked) := by
  funext x
  by_cases same : x = a
  · subst same
    rw [Function.update_self, overlay_of_mem (Set.mem_insert ..)]
  · rw [Function.update_of_ne same]
    by_cases inside : x ∈ marked
    · rw [overlay_of_mem inside, overlay_of_mem (Set.mem_insert_of_mem a inside)]
    · rw [overlay_of_notMem inside, overlay_of_notMem (by simp [same, inside])]

/-- Unmarking a point writes the base value back. -/
theorem update_overlay_erase (a : α) :
    Function.update (overlay base mark marked) a (base a) = overlay base mark (marked \ {a}) := by
  funext x
  by_cases same : x = a
  · subst same
    rw [Function.update_self, overlay_of_notMem (by simp)]
  · rw [Function.update_of_ne same]
    by_cases inside : x ∈ marked
    · have kept : x ∈ marked \ {a} := ⟨inside, same⟩
      rw [overlay_of_mem inside, overlay_of_mem kept]
    · rw [overlay_of_notMem inside, overlay_of_notMem fun h => inside h.1]

end Machine
