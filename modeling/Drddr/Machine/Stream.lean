import Mathlib.Algebra.GroupWithZero.Nat
import Mathlib.Data.List.Basic
import Mathlib.Data.List.GetD

/-!
# Buffers read and written through a file

A read hands out what stands in a buffer at the position of the file, as much as is asked for and
as there is, and a write puts what it is given there; both move the position on. So a reader that
goes on and on gets the front of the buffer, and a writer may cut its data as it likes.
-/

namespace Machine

variable {β : Type*}

/-- The first so many elements of a buffer. -/
def front (content : Nat → β) (n : Nat) : List β := (List.range n).map content

/-- The front of a buffer is as long as it says. -/
@[simp] theorem length_front (content : Nat → β) (n : Nat) : (front content n).length = n := by
  rw [front, List.length_map, List.length_range]

/-- The front of a buffer has two parts: a shorter front, and what stands behind it. -/
theorem front_add (content : Nat → β) (n m : Nat) :
    front content (n + m) = front content n ++ front (fun k => content (n + k)) m := by
  rw [front, front, front, List.range_add, List.map_append, List.map_map]
  rfl

/-- The front of a longer front is the shorter one. -/
theorem take_front (content : Nat → β) {n m : Nat} (le : n ≤ m) :
    (front content m).take n = front content n := by
  obtain ⟨d, rfl⟩ := Nat.exists_eq_add_of_le le
  rw [front_add, List.take_left' (length_front content n)]

/-- An element of the front is that of the buffer. -/
theorem getElem?_front (content : Nat → β) {n k : Nat} (inside : k < n) :
    (front content n)[k]? = some (content k) := by
  rw [front, List.getElem?_map, List.getElem?_range inside]
  rfl

/-- A list that stands at the start of a buffer is its front. -/
theorem front_of_list {content : Nat → β} {list : List β}
    (stands : ∀ k, k < list.length → list[k]? = some (content k)) :
    front content list.length = list := by
  refine List.ext_getElem? fun k => ?_
  by_cases inside : k < list.length
  · rw [getElem?_front content inside, stands k inside]
  · rw [List.getElem?_eq_none (by simpa using inside), List.getElem?_eq_none (by omega)]

/-- The elements up to the first one that fails a test are a front. -/
theorem takeWhile_front {content : Nat → β} {test : β → Bool} {first n : Nat} (inside : first < n)
    (before : ∀ k < first, test (content k) = true) (fails : test (content first) = false) :
    (front content n).takeWhile test = front content first := by
  obtain ⟨d, rfl⟩ := Nat.exists_eq_add_of_lt inside
  have passes : ∀ b ∈ front content first, test b = true := by
    intro b member
    obtain ⟨k, below, rfl⟩ := List.mem_map.mp member
    exact before k (List.mem_range.mp below)
  have rest : front (fun k => content (first + k)) (1 + d) =
      content first :: front (fun k => content (first + (1 + k))) d := by
    rw [front_add]
    rfl
  have stop : ¬test (content first) = true := by
    rw [fails]
    exact Bool.false_ne_true
  rw [Nat.add_assoc, Nat.add_comm d 1, front_add, List.takeWhile_append_of_pos passes, rest,
    List.takeWhile_cons_of_neg stop, List.append_nil]

/-- `simple_read_from_buffer`: what is handed out, and the position after it. -/
def simpleReadFromBuffer (content : Nat → β) (available pos count : Nat) : List β × Nat :=
  let taken := min count (available - pos)
  ((List.range taken).map fun k => content (pos + k), pos + taken)

/-- What has been handed out goes on with what is handed out next. -/
theorem front_read (content : Nat → β) (available pos count : Nat) :
    front content pos ++ (simpleReadFromBuffer content available pos count).1 =
      front content (simpleReadFromBuffer content available pos count).2 := by
  rw [simpleReadFromBuffer, front_add]
  rfl

/-- The position stays inside the buffer. -/
theorem read_inside (content : Nat → β) {available pos : Nat} (inside : pos ≤ available)
    (count : Nat) : (simpleReadFromBuffer content available pos count).2 ≤ available := by
  show pos + min count (available - pos) ≤ available
  omega

/-- A read never moves the position back. -/
theorem pos_le_read (content : Nat → β) (available pos count : Nat) :
    pos ≤ (simpleReadFromBuffer content available pos count).2 := Nat.le_add_right _ _

/-- A read of something moves the position, except at the end. -/
theorem pos_lt_read (content : Nat → β) {available pos count : Nat} (inside : pos < available)
    (positive : 0 < count) : pos < (simpleReadFromBuffer content available pos count).2 := by
  show pos < pos + min count (available - pos)
  omega

/-- What a reader gets that asks for these counts, one after the other, from a position on. -/
def readPieces (content : Nat → β) (available : Nat) : Nat → List Nat → List β
  | _, [] => []
  | pos, count :: counts =>
    let (out, pos) := simpleReadFromBuffer content available pos count
    out ++ readPieces content available pos counts

/-- What is read in pieces goes on with the front of the buffer, however it is cut. -/
theorem front_readPieces (content : Nat → β) {available pos : Nat} (inside : pos ≤ available)
    (counts : List Nat) :
    front content pos ++ readPieces content available pos counts =
      front content (min (pos + counts.sum) available) := by
  induction counts generalizing pos with
  | nil =>
    rw [readPieces, List.append_nil, List.sum_nil, Nat.add_zero, Nat.min_eq_left inside]
  | cons count counts ih =>
    have rest := ih (read_inside content inside count)
    have place : min ((simpleReadFromBuffer content available pos count).2 + counts.sum) available =
        min (pos + (count :: counts).sum) available := by
      show min (pos + min count (available - pos) + counts.sum) available = _
      rw [List.sum_cons]
      omega
    rw [readPieces, ← List.append_assoc, front_read, rest, place]

/-- What is read in pieces from the start is so much of the buffer as was asked for, and as there
is. -/
theorem readPieces_eq (content : Nat → β) (available : Nat) (counts : List Nat) :
    readPieces content available 0 counts = front content (min counts.sum available) := by
  have pieces := front_readPieces content (Nat.zero_le available) counts
  rw [Nat.zero_add] at pieces
  exact pieces

end Machine
