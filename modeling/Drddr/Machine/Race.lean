import Mathlib.Data.Set.Insert

/-!
# Accesses that race

Two accesses race when they have a place in common and one of them is a write. A watch is a set of
places, for writes or for reads and writes; it stands for an access when it goes off at exactly the
accesses that race with that one.
-/

namespace Machine

variable {α : Type*}

/-- An access to some places. -/
structure MemAccess (α : Type*) where
  bytes : Set α
  write : Bool

/-- Two accesses race: they have a byte in common, and one of them writes. -/
def MemAccess.Conflicts (x y : MemAccess α) : Prop :=
  (∃ a ∈ x.bytes, a ∈ y.bytes) ∧ (x.write = true ∨ y.write = true)

/-- A watch goes off at an access. -/
def Trips (watched : Set α) (reads : Bool) (y : MemAccess α) : Prop :=
  (∃ a ∈ watched, a ∈ y.bytes) ∧ (reads = true ∨ y.write = true)

/-- A watch goes off at a write of one place just when it watches that place. -/
theorem trips_write {watched : Set α} {reads : Bool} {a : α} :
    Trips watched reads ⟨{a}, true⟩ ↔ a ∈ watched := by
  constructor
  · intro trips
    obtain ⟨⟨b, inside, same⟩, -⟩ := trips
    have place : b = a := same
    exact place ▸ inside
  · intro inside
    exact ⟨⟨a, inside, rfl⟩, .inr rfl⟩

/-- A watchpoint trips at a read of a place that it watches just when it is for reads, too. -/
theorem trips_read {watched : Set α} {reads : Bool} {a : α} (inside : a ∈ watched) :
    Trips watched reads ⟨{a}, false⟩ ↔ reads = true := by
  constructor
  · intro trips
    exact trips.2.resolve_right Bool.false_ne_true
  · intro both
    exact ⟨⟨a, inside, rfl⟩, .inl both⟩

/-- A watch goes off at exactly the accesses that race with a given one if and only if it is on the
same places, and for reads when that is a write. -/
theorem trips_iff_conflicts {watched : Set α} {reads : Bool} {x : MemAccess α}
    (nonempty : x.bytes.Nonempty) :
    (∀ y, Trips watched reads y ↔ x.Conflicts y) ↔ watched = x.bytes ∧ reads = x.write := by
  constructor
  · intro detects
    have places : watched = x.bytes := by
      ext a
      have here := detects ⟨{a}, true⟩
      rw [trips_write] at here
      rw [here]
      exact @trips_write α x.bytes x.write a
    obtain ⟨a, inside⟩ := nonempty
    have there : a ∈ watched := places ▸ inside
    have here := detects ⟨{a}, false⟩
    rw [trips_read there] at here
    have mode : reads = true ↔ x.write = true :=
      here.trans (@trips_read α x.bytes x.write a inside)
    exact ⟨places, Bool.eq_iff_iff.mpr mode⟩
  · intro same y
    rw [same.1, same.2]
    rfl

end Machine
