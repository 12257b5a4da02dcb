import Mathlib.Data.BitVec
import Mathlib.Logic.Function.Basic
import Mathlib.Tactic.Abel

/-!
# Byte-addressed memory

A memory is a total map from 64-bit addresses to bytes. Address arithmetic wraps,
so a range is named by its base and by the distance of an address from that base.
Words are little-endian; a read of fewer than eight bytes is zero-extended.
-/

namespace Machine

/-- A machine byte. -/
abbrev Byte := BitVec 8

/-- A machine word, also an address. -/
abbrev Word := BitVec 64

/-- The contents of every address. -/
abbrev Memory := Word → Byte

/-- Distance of an address from a base, upward and modulo the address space. -/
def offset (base a : Word) : Nat := (a - base).toNat

/-- A distance may be added in two parts. -/
theorem add_ofNat_add (a : Word) (i j : Nat) :
    a + BitVec.ofNat 64 (i + j) = a + BitVec.ofNat 64 i + BitVec.ofNat 64 j := by
  rw [BitVec.ofNat_add, ← BitVec.add_assoc]

/-- A displacement below the address-space size is its own distance. -/
@[simp] theorem offset_add (base : Word) (i : Nat) (h : i < 2 ^ 64) :
    offset base (base + BitVec.ofNat 64 i) = i := by
  have : base + BitVec.ofNat 64 i - base = BitVec.ofNat 64 i := by abel
  rw [offset, this, BitVec.toNat_ofNat, Nat.mod_eq_of_lt h]

/-- An address above another one is also named by its distance from below that. -/
theorem sub_add_ofNat_add (a : Word) (k i : Nat) :
    a - BitVec.ofNat 64 k + BitVec.ofNat 64 (k + i) = a + BitVec.ofNat 64 i := by
  rw [add_ofNat_add, BitVec.sub_add_cancel]

/-- The distance from below an address is greater by as much. -/
theorem offset_sub_add (a : Word) (k : Nat) {i : Nat} (fits : k + i < 2 ^ 64) :
    offset (a - BitVec.ofNat 64 k) (a + BitVec.ofNat 64 i) = k + i := by
  rw [← sub_add_ofNat_add a k i, offset_add _ _ fits]

/-- The distance of two addresses in either order is that of their distances from a base. -/
theorem offset_add_add_mod (base : Word) {i : Nat} (inside : i < 2 ^ 64) (j : Nat) :
    offset (base + BitVec.ofNat 64 i) (base + BitVec.ofNat 64 j) = (j + (2 ^ 64 - i)) % 2 ^ 64 := by
  have apart : base + BitVec.ofNat 64 j - (base + BitVec.ofNat 64 i) =
      BitVec.ofNat 64 j - BitVec.ofNat 64 i := by abel
  rw [offset, apart, BitVec.toNat_sub, BitVec.toNat_ofNat, BitVec.toNat_ofNat]
  omega

/-- Two addresses named by their distance from one base have the difference of these for their
distance. -/
theorem offset_add_add (base : Word) {i j : Nat} (le : i ≤ j) (fits : j - i < 2 ^ 64) :
    offset (base + BitVec.ofNat 64 i) (base + BitVec.ofNat 64 j) = j - i := by
  have place : base + BitVec.ofNat 64 j
      = base + BitVec.ofNat 64 i + BitVec.ofNat 64 (j - i) := by
    rw [← add_ofNat_add, Nat.add_sub_cancel' le]
  rw [place, offset_add _ _ fits]

/-- Every address is its base advanced by its distance. -/
theorem add_offset (base a : Word) : base + BitVec.ofNat 64 (offset base a) = a := by
  rw [offset, BitVec.ofNat_toNat, BitVec.setWidth_eq]
  abel

/-- Distances determine addresses. -/
theorem offset_injective (base : Word) {a b : Word} (h : offset base a = offset base b) :
    a = b := by
  rw [← add_offset base a, ← add_offset base b, h]

namespace Memory

/-- The byte of a word at a little-endian position. -/
def byteOf (value : Word) (i : Nat) : Byte := (value >>> (8 * i)).setWidth 8

/-- Overwrite one byte. -/
def set (m : Memory) (a : Word) (b : Byte) : Memory := Function.update m a b

/-- The overwritten byte is the stored one. -/
@[simp] theorem set_self (m : Memory) (a : Word) (b : Byte) : m.set a b a = b :=
  Function.update_self ..

/-- Every other byte is unchanged. -/
@[simp] theorem set_of_ne (m : Memory) {a x : Word} (b : Byte) (h : x ≠ a) : m.set a b x = m x :=
  Function.update_of_ne h ..

/-- Read `n` bytes as a zero-extended little-endian word. -/
def read (m : Memory) (a : Word) : Nat → Word
  | 0 => 0
  | n + 1 => (m a).setWidth 64 ||| (read m (a + 1#64) n <<< 8)

/-- Overwrite `n` bytes with the low bytes of a word, little-endian. -/
def write (m : Memory) (a : Word) (n : Nat) (value : Word) : Memory := fun x =>
  if offset a x < n then byteOf value (offset a x) else m x

/-- A write reaches exactly the bytes of its range. -/
theorem write_of_le (m : Memory) (a : Word) (n : Nat) (value : Word) {x : Word}
    (h : n ≤ offset a x) : m.write a n value x = m x := if_neg (Nat.not_lt.mpr h)

/-- Inside its range a write stores the byte of its position. -/
theorem write_of_lt (m : Memory) (a : Word) (n : Nat) (value : Word) {x : Word}
    (h : offset a x < n) : m.write a n value x = byteOf value (offset a x) := if_pos h

/-- Each bit of a read is a bit of the byte that holds it. -/
theorem getLsbD_read (m : Memory) (a : Word) (n i : Nat) :
    (m.read a n).getLsbD i =
      (decide (i < 64) && decide (i < 8 * n) &&
        (m (a + BitVec.ofNat 64 (i / 8))).getLsbD (i % 8)) := by
  induction n generalizing a i with
  | zero => simp [read]
  | succ n ih =>
    by_cases low : i < 8
    · have hi : i / 8 = 0 := by omega
      simp [read, low, hi, show i < 64 by omega, show i < 8 * (n + 1) by omega,
        Nat.mod_eq_of_lt low]
    · have step : a + 1#64 + BitVec.ofNat 64 ((i - 8) / 8) = a + BitVec.ofNat 64 (i / 8) := by
        rw [show i / 8 = 1 + (i - 8) / 8 by omega, add_ofNat_add]
      have high : (m a).getLsbD i = false := BitVec.getLsbD_of_ge _ _ (by omega)
      have shifted : (decide (i - 8 < 8 * n)) = decide (i < 8 * (n + 1)) := by
        simp only [decide_eq_decide]
        omega
      simp only [read, BitVec.getLsbD_or, BitVec.getLsbD_setWidth, high, Bool.and_false,
        Bool.false_or, BitVec.getLsbD_shiftLeft, low, decide_false, Bool.not_false, Bool.and_true,
        ih, step, show (i - 8) % 8 = i % 8 by omega, shifted]
      by_cases inside : i < 64
      · simp [inside, show i - 8 < 64 by omega]
      · simp [inside]

/-- Two memories hold the same bytes from two addresses on, so many of them. -/
def SameBytes (m m' : Memory) (a a' : Word) (n : Nat) : Prop :=
  ∀ i, i < n → m (a + BitVec.ofNat 64 i) = m' (a' + BitVec.ofNat 64 i)

instance (m m' : Memory) (a a' : Word) (n : Nat) : Decidable (SameBytes m m' a a' n) :=
  inferInstanceAs (Decidable (∀ i, i < n → _))

/-- A read depends only on the bytes of its range. -/
theorem SameBytes.read {m m' : Memory} {a a' : Word} {n : Nat} (same : SameBytes m m' a a' n) :
    m.read a n = m'.read a' n := by
  apply BitVec.eq_of_getLsbD_eq
  intro i hi
  rw [getLsbD_read, getLsbD_read]
  by_cases inside : i < 8 * n
  · rw [same (i / 8) (by omega)]
  · simp [inside]

/-- The bytes of a part of a range are the same if those of the range are. -/
theorem SameBytes.part {m m' : Memory} {a a' : Word} {n : Nat} (same : SameBytes m m' a a' n)
    {i k : Nat} (inside : i + k ≤ n) :
    SameBytes m m' (a + BitVec.ofNat 64 i) (a' + BitVec.ofNat 64 i) k := by
  intro j hj
  rw [← add_ofNat_add, ← add_ofNat_add]
  exact same (i + j) (by omega)

/-- A word is read from its own bytes. -/
theorem read_congr {m m' : Memory} (a : Word) (n : Nat)
    (h : ∀ i, i < n → m (a + BitVec.ofNat 64 i) = m' (a + BitVec.ofNat 64 i)) :
    m.read a n = m'.read a n :=
  SameBytes.read h

/-- Reading back a written word returns its low bytes. -/
theorem read_write (m : Memory) (a : Word) (n : Nat) (value : Word) :
    (m.write a n value).read a n = (value.setWidth (8 * n)).setWidth 64 := by
  apply BitVec.eq_of_getLsbD_eq
  intro i hi
  rw [getLsbD_read]
  simp only [BitVec.getLsbD_setWidth]
  by_cases inside : i < 8 * n
  · have place : offset a (a + BitVec.ofNat 64 (i / 8)) = i / 8 := offset_add a _ (by omega)
    rw [write_of_lt _ _ _ _ (by rw [place]; omega), place]
    simp [byteOf, inside, Nat.mod_lt, show 8 * (i / 8) + i % 8 = i by omega]
  · simp [inside]

/-- A whole word is read back unchanged. -/
@[simp] theorem read_write_word (m : Memory) (a value : Word) :
    (m.write a 8 value).read a 8 = value := by
  rw [read_write]
  exact BitVec.setWidth_eq value

/-- A read outside the range of a write is unaffected. -/
theorem read_write_of_disjoint (m : Memory) {a b : Word} {n k : Nat} (value : Word)
    (apart : ∀ i < k, n ≤ offset a (b + BitVec.ofNat 64 i)) :
    (m.write a n value).read b k = m.read b k :=
  read_congr b k fun i hi => write_of_le m a n value (apart i hi)

/-- A word apart from a written one is read as before, both named by their distance from one base.
-/
theorem read_write_apart (m : Memory) (base v : Word) {i j : Nat}
    (apart : i + 8 ≤ j ∨ j + 8 ≤ i) (fits : i + 8 ≤ 2 ^ 64 ∧ j + 8 ≤ 2 ^ 64) :
    (m.write (base + BitVec.ofNat 64 i) 8 v).read (base + BitVec.ofNat 64 j) 8
      = m.read (base + BitVec.ofNat 64 j) 8 := by
  apply read_write_of_disjoint
  intro k hk
  rw [← add_ofNat_add, offset_add_add_mod base (by omega)]
  omega

/-- The bytes of a read are the bytes it read. -/
theorem byteOf_read (m : Memory) (a : Word) {n i : Nat} (inside : i < n) (word : n ≤ 8) :
    byteOf (m.read a n) i = m (a + BitVec.ofNat 64 i) := by
  apply BitVec.eq_of_getLsbD_eq
  intro k hk
  have place : (8 * i + k) / 8 = i := by omega
  have rest : (8 * i + k) % 8 = k := by omega
  simp only [byteOf, BitVec.getLsbD_setWidth, BitVec.getLsbD_ushiftRight, getLsbD_read, place, rest]
  simp [hk, show 8 * i + k < 64 by omega, show 8 * i + k < 8 * n by omega]

/-- A read is zero above the bytes it read. -/
theorem setWidth_read (m : Memory) (a : Word) (n : Nat) :
    ((m.read a n).setWidth (8 * n)).setWidth 64 = m.read a n := by
  apply BitVec.eq_of_getLsbD_eq
  intro i hi
  simp only [BitVec.getLsbD_setWidth, getLsbD_read]
  by_cases inside : i < 8 * n
  · simp [inside, hi]
  · simp [inside]

/-- Writing back what was read changes nothing. -/
theorem write_read (m : Memory) (a : Word) {n : Nat} (word : n ≤ 8) :
    m.write a n (m.read a n) = m := by
  funext x
  by_cases inside : offset a x < n
  · rw [write_of_lt _ _ _ _ inside, byteOf_read m a inside word, add_offset]
  · rw [write_of_le _ _ _ _ (Nat.not_lt.mp inside)]

/-- A second write of the same range replaces the first. -/
theorem write_write (m : Memory) (a : Word) (n : Nat) (v w : Word) :
    (m.write a n v).write a n w = m.write a n w := by
  funext x
  by_cases inside : offset a x < n
  · rw [write_of_lt _ _ _ _ inside, write_of_lt _ _ _ _ inside]
  · have outside := Nat.not_lt.mp inside
    rw [write_of_le _ _ _ _ outside, write_of_le _ _ _ _ outside, write_of_le _ _ _ _ outside]

/-- Overwrite consecutive words. -/
def writeWords (m : Memory) : Word → List Word → Memory
  | _, [] => m
  | a, w :: ws => writeWords (m.write a 8 w) (a + 8#64) ws

/-- Consecutive word writes reach only their range. -/
theorem writeWords_of_le (m : Memory) (a : Word) (ws : List Word) {x : Word}
    (fits : 8 * ws.length < 2 ^ 64) (h : 8 * ws.length ≤ offset a x) :
    m.writeWords a ws x = m x := by
  induction ws generalizing m a with
  | nil => rfl
  | cons w ws ih =>
    simp only [List.length_cons] at fits h
    have next : offset (a + 8#64) x = offset a x - 8 := by
      simp only [offset, BitVec.toNat_sub, BitVec.toNat_add, BitVec.toNat_ofNat] at h ⊢
      omega
    rw [writeWords, ih _ _ (by omega) (by omega), write_of_le _ _ _ _ (by omega)]

/-- Each of the words written is read back at its place. -/
theorem read_writeWords (m : Memory) (a : Word) (ws : List Word) (fits : 8 * ws.length < 2 ^ 64)
    (k : Nat) (inside : k < ws.length) :
    (m.writeWords a ws).read (a + BitVec.ofNat 64 (8 * k)) 8 = ws[k] := by
  induction ws generalizing m a k with
  | nil => simp at inside
  | cons w ws ih =>
    simp only [List.length_cons] at fits inside
    cases k with
    | zero =>
      have later :
          (writeWords (m.write a 8 w) (a + 8#64) ws).read a 8 = (m.write a 8 w).read a 8 := by
        apply read_congr
        intro i hi
        apply writeWords_of_le _ _ _ (by omega)
        simp only [offset, BitVec.toNat_sub, BitVec.toNat_add, BitVec.toNat_ofNat]
        omega
      simp only [writeWords, Nat.mul_zero, BitVec.add_zero, List.getElem_cons_zero]
      rw [later, read_write_word]
    | succ k =>
      have place : a + BitVec.ofNat 64 (8 * (k + 1)) = a + 8#64 + BitVec.ofNat 64 (8 * k) := by
        rw [Nat.mul_succ, Nat.add_comm, add_ofNat_add]
      simp only [writeWords, List.getElem_cons_succ]
      rw [place]
      exact ih _ _ (by omega) k (by omega)

/-- The bytes at an address, one after the other. -/
def HoldsAt (m : Memory) : Word → List Byte → Prop
  | _, [] => True
  | a, b :: bytes => m a = b ∧ HoldsAt m (a + 1#64) bytes

instance decidableHoldsAt (m : Memory) : (a : Word) → (bytes : List Byte) →
    Decidable (m.HoldsAt a bytes)
  | _, [] => isTrue trivial
  | a, b :: bytes =>
    have := decidableHoldsAt m (a + 1#64) bytes
    inferInstanceAs (Decidable (m a = b ∧ m.HoldsAt (a + 1#64) bytes))

/-- A byte string at an address, and zero elsewhere. -/
def ofBytes (base : Word) (bytes : List Byte) : Memory := fun a => bytes.getD (offset base a) 0

/-- A byte string is held when its parts are, one after the other. -/
theorem holdsAt_append (m : Memory) (a : Word) (front back : List Byte) :
    m.HoldsAt a (front ++ back) ↔
      m.HoldsAt a front ∧ m.HoldsAt (a + BitVec.ofNat 64 front.length) back := by
  induction front generalizing a with
  | nil => simp [HoldsAt]
  | cons b front ih =>
    have next : a + 1#64 + BitVec.ofNat 64 front.length
        = a + BitVec.ofNat 64 (front.length + 1) := by
      rw [Nat.add_comm front.length, add_ofNat_add]
    rw [List.cons_append, HoldsAt, HoldsAt, ih, List.length_cons, next, and_assoc]

/-- Each byte of a held string is at its place. -/
theorem HoldsAt.getElem {m : Memory} {a : Word} {bytes : List Byte} (held : m.HoldsAt a bytes)
    {i : Nat} (inside : i < bytes.length) : m (a + BitVec.ofNat 64 i) = bytes[i] := by
  have split : bytes = bytes.take i ++ bytes[i] :: bytes.drop (i + 1) := by
    rw [List.getElem_cons_drop, List.take_append_drop]
  rw [split, holdsAt_append, List.length_take, Nat.min_eq_left (by omega)] at held
  exact held.2.1

end Memory

end Machine
