import Drddr.Machine.Memory

/-!
# Aligned blocks

The address space divides into blocks of a power of two of bytes. A block is named by any address
in it; it starts at that address with the low bits cleared.
-/

namespace Machine

/-- The first address of a block. -/
def blockStart (log : Nat) (a : Word) : Word := a >>> log <<< log

/-- Clearing the low bits rounds down. -/
theorem toNat_blockStart (log : Nat) (a : Word) :
    (blockStart log a).toNat = a.toNat / 2 ^ log * 2 ^ log := by
  have below : a.toNat / 2 ^ log * 2 ^ log < 2 ^ 64 :=
    Nat.lt_of_le_of_lt (Nat.div_mul_le_self _ _) a.isLt
  rw [blockStart, BitVec.toNat_shiftLeft, BitVec.toNat_ushiftRight, Nat.shiftRight_eq_div_pow,
    Nat.shiftLeft_eq, Nat.mod_eq_of_lt below]

/-- A block ends inside the address space. -/
theorem block_fits {log : Nat} (small : log < 64) (a : Word) :
    a.toNat / 2 ^ log * 2 ^ log + 2 ^ log ≤ 2 ^ 64 := by
  have whole : 2 ^ 64 = 2 ^ (64 - log) * 2 ^ log := by
    rw [← Nat.pow_add]
    congr 1
    omega
  have index : a.toNat / 2 ^ log < 2 ^ (64 - log) := by
    rw [Nat.div_lt_iff_lt_mul (Nat.two_pow_pos log), ← whole]
    exact a.isLt
  rw [whole, ← Nat.succ_mul]
  exact Nat.mul_le_mul_right _ index

/-- An address with a distance from the start of a block lies in it. -/
theorem toNat_add_div {log : Nat} (small : log < 64) {start : Word} {k : Nat}
    (aligned : 2 ^ log ∣ start.toNat) (inside : k < 2 ^ log) :
    (start + BitVec.ofNat 64 k).toNat / 2 ^ log = start.toNat / 2 ^ log := by
  have place : start.toNat / 2 ^ log * 2 ^ log = start.toNat := Nat.div_mul_cancel aligned
  have fits := block_fits small start
  rw [BitVec.toNat_add, BitVec.toNat_ofNat, Nat.mod_eq_of_lt (a := k) (by omega),
    Nat.mod_eq_of_lt (by omega), ← place, Nat.mul_comm, Nat.mul_add_div (Nat.two_pow_pos log),
    Nat.div_eq_of_lt inside, Nat.add_zero, Nat.mul_div_cancel_left _ (Nat.two_pow_pos log)]

/-- The addresses of a block are those with its index. -/
theorem mem_block {log : Nat} (small : log < 64) {a d : Word} :
    (∃ k < 2 ^ log, a = blockStart log d + BitVec.ofNat 64 k) ↔
      a.toNat / 2 ^ log = d.toNat / 2 ^ log := by
  have aligned (x : Word) : 2 ^ log ∣ (blockStart log x).toNat := by
    rw [toNat_blockStart]
    exact Nat.dvd_mul_left ..
  have index (x : Word) : (blockStart log x).toNat / 2 ^ log = x.toNat / 2 ^ log := by
    rw [toNat_blockStart, Nat.mul_div_cancel _ (Nat.two_pow_pos log)]
  constructor
  · rintro ⟨k, inside, rfl⟩
    rw [toNat_add_div small (aligned d) inside, index]
  · intro same
    have inside := Nat.mod_lt a.toNat (Nat.two_pow_pos log)
    refine ⟨a.toNat % 2 ^ log, inside, BitVec.eq_of_toNat_eq ?_⟩
    have fits := block_fits small d
    have division := Nat.div_add_mod' a.toNat (2 ^ log)
    rw [BitVec.toNat_add, BitVec.toNat_ofNat, toNat_blockStart, ← same,
      Nat.mod_eq_of_lt (a := a.toNat % 2 ^ log) (by omega), Nat.mod_eq_of_lt (by omega), division]

/-- As many bytes as a block has lie in one block exactly when they start where it does. -/
theorem range_in_block {log : Nat} (small : log < 64) {a d : Word} :
    (∀ k < 2 ^ log, (a + BitVec.ofNat 64 k).toNat / 2 ^ log = d.toNat / 2 ^ log) ↔
      2 ^ log ∣ a.toNat ∧ a.toNat / 2 ^ log = d.toNat / 2 ^ log := by
  constructor
  · intro all
    have first : a.toNat / 2 ^ log = d.toNat / 2 ^ log := by
      have here := all 0 (Nat.two_pow_pos log)
      rwa [BitVec.add_zero] at here
    refine ⟨?_, first⟩
    by_contra crosses
    have rest : 0 < a.toNat % 2 ^ log := Nat.pos_of_ne_zero fun zero =>
      crosses (Nat.dvd_of_mod_eq_zero zero)
    have inside := Nat.mod_lt a.toNat (Nat.two_pow_pos log)
    -- The first byte of the next block is among them.
    have next := all (2 ^ log - a.toNat % 2 ^ log) (by omega)
    have division := Nat.div_add_mod' a.toNat (2 ^ log)
    have fits := block_fits small a
    have size : 2 ^ log < 2 ^ 64 := Nat.pow_lt_pow_right (by decide) small
    have sum : a.toNat + (2 ^ log - a.toNat % 2 ^ log) = (a.toNat / 2 ^ log + 1) * 2 ^ log := by
      rw [Nat.succ_mul]
      omega
    rw [BitVec.toNat_add, BitVec.toNat_ofNat, Nat.mod_eq_of_lt (a := 2 ^ log - _) (by omega),
      sum, ← first, Nat.succ_mul] at next
    rcases fits.eq_or_lt with full | below
    · -- The next block is the first one, so there is only one block.
      rw [full, Nat.mod_self, Nat.zero_div] at next
      rw [← next] at full
      omega
    · rw [Nat.mod_eq_of_lt below, ← Nat.succ_mul, Nat.mul_div_cancel _ (Nat.two_pow_pos log)]
        at next
      omega
  · rintro ⟨aligned, same⟩ k inside
    rw [toNat_add_div small aligned inside, same]

/-- As many bytes as a block has are a block exactly when they start where it does. -/
theorem block_eq_range {log : Nat} (small : log < 64) {a d : Word} :
    (∀ b : Word, b.toNat / 2 ^ log = d.toNat / 2 ^ log ↔
      ∃ k < 2 ^ log, b = a + BitVec.ofNat 64 k) ↔
      2 ^ log ∣ a.toNat ∧ a.toNat / 2 ^ log = d.toNat / 2 ^ log := by
  constructor
  · intro same
    exact (range_in_block small).mp fun k inside => (same _).mpr ⟨k, inside, rfl⟩
  · intro fits b
    have start : blockStart log a = a := by
      apply BitVec.eq_of_toNat_eq
      rw [toNat_blockStart, Nat.div_mul_cancel fits.1]
    have range := mem_block small (a := b) (d := a)
    rw [start] at range
    rw [range, fits.2]

/-- A block starts at an address exactly when that is a multiple of its size and in it. -/
theorem blockStart_eq_iff {log : Nat} {a d : Word} :
    blockStart log d = a ↔ 2 ^ log ∣ a.toNat ∧ a.toNat / 2 ^ log = d.toNat / 2 ^ log := by
  rw [← BitVec.toNat_inj, toNat_blockStart]
  constructor
  · intro start
    rw [← start, Nat.mul_div_cancel _ (Nat.two_pow_pos log)]
    exact ⟨Nat.dvd_mul_left .., rfl⟩
  · rintro ⟨aligned, same⟩
    rw [← same, Nat.div_mul_cancel aligned]

/-- Two ranges of bytes are the same exactly when they start at one byte and are as long, if they do
not go round together. -/
theorem range_eq_iff {a b : Word} {n n' : Nat} (positive : 0 < n) (positive' : 0 < n')
    (fits : n + n' ≤ 2 ^ 64) :
    (∀ x, (∃ k < n, x = a + BitVec.ofNat 64 k) ↔ ∃ k < n', x = b + BitVec.ofNat 64 k) ↔
      a = b ∧ n = n' := by
  constructor
  · intro same
    obtain ⟨i, below, forth⟩ := (same a).mp ⟨0, positive, (BitVec.add_zero a).symm⟩
    obtain ⟨j, below', back⟩ := (same b).mpr ⟨0, positive', (BitVec.add_zero b).symm⟩
    have start : a = b := by
      have round : offset a (a + BitVec.ofNat 64 (j + i)) = 0 := by
        rw [add_ofNat_add, ← back, ← forth, offset, BitVec.sub_self]
        rfl
      rw [offset_add _ _ (by omega)] at round
      have last : i = 0 := by omega
      rw [forth, last]
      exact BitVec.add_zero b
    have bound {p q : Nat} (small : p < 2 ^ 64 ∧ q < 2 ^ 64)
        (inside : ∃ k < q, a + BitVec.ofNat 64 p = a + BitVec.ofNat 64 k) : p < q := by
      obtain ⟨k, below, here⟩ := inside
      have place := congrArg (offset a) here
      rw [offset_add _ _ small.1, offset_add _ _ (by omega)] at place
      omega
    subst start
    have atMost : n - 1 < n' :=
      bound ⟨by omega, by omega⟩ ((same _).mp ⟨n - 1, by omega, rfl⟩)
    have atLeast : n' - 1 < n :=
      bound ⟨by omega, by omega⟩ ((same _).mpr ⟨n' - 1, by omega, rfl⟩)
    exact ⟨rfl, by omega⟩
  · rintro ⟨rfl, rfl⟩ x
    exact Iff.rfl

/-- A block is a range of bytes exactly when it starts where that does and is as long. -/
theorem block_eq_range_iff {log n : Nat} (small : log < 64) (positive : 0 < n)
    (fits : 2 ^ log + n ≤ 2 ^ 64) {a d : Word} :
    { b : Word | b.toNat / 2 ^ log = d.toNat / 2 ^ log } =
        { b | ∃ k < n, b = a + BitVec.ofNat 64 k } ↔
      (2 ^ log ∣ a.toNat ∧ a.toNat / 2 ^ log = d.toNat / 2 ^ log) ∧ 2 ^ log = n := by
  rw [Set.ext_iff, ← blockStart_eq_iff, ← range_eq_iff (Nat.two_pow_pos log) positive fits]
  exact forall_congr' fun b => iff_congr (mem_block small).symm Iff.rfl

end Machine
