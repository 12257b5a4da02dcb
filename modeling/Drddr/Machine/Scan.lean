import Drddr.Machine.Memory

/-!
# Forward scans for a byte

A scan looks at a number of consecutive bytes and stops at the first one of a given value.
As long as the bytes looked at do not pass the end of the address space, what it finds is
the least such address, so it depends on no byte above the one it stops at.
-/

namespace Machine

namespace Memory

/-- The first of `n` bytes from `a` on that has the value. -/
def findByte (m : Memory) (value : Byte) : Nat → Word → Option Word
  | 0, _ => none
  | n + 1, a => if m a = value then some a else findByte m value n (a + 1#64)

/-- A scan below the end of the address space finds the least address with the value. -/
theorem findByte_eq_some {m : Memory} {value : Byte} {n : Nat} {a p : Word}
    (fits : a.toNat + n ≤ 2 ^ 64) : m.findByte value n a = some p ↔
      a.toNat ≤ p.toNat ∧ p.toNat < a.toNat + n ∧ m p = value ∧
        ∀ x : Word, a.toNat ≤ x.toNat → x.toNat < p.toNat → m x ≠ value := by
  induction n generalizing a with
  | zero =>
    constructor
    · intro found
      contradiction
    · rintro ⟨lower, upper, -⟩
      omega
  | succ n ih =>
    have same {x : Word} (eq : x.toNat = a.toNat) : x = a := BitVec.eq_of_toNat_eq eq
    by_cases here : m a = value
    · simp only [findByte, here, if_true, Option.some.injEq]
      constructor
      · rintro rfl
        exact ⟨le_rfl, by omega, here, fun x lower upper => by omega⟩
      · rintro ⟨lower, -, -, first⟩
        by_contra later
        have above : a.toNat ≠ p.toNat := fun eq => later (same eq.symm).symm
        exact first a le_rfl (by omega) here
    · simp only [findByte, here, if_false]
      by_cases last : a.toNat + 1 = 2 ^ 64
      · -- No byte is left to look at.
        have empty : n = 0 := by omega
        subst empty
        constructor
        · intro found
          contradiction
        · rintro ⟨lower, upper, holds, -⟩
          have only : p = a := same (by omega)
          exact absurd (only ▸ holds) here
      · have next : (a + 1#64).toNat = a.toNat + 1 := by
          have bound := a.isLt
          rw [BitVec.toNat_add, BitVec.toNat_ofNat]
          omega
        rw [ih (by omega), next]
        constructor
        · rintro ⟨lower, upper, holds, first⟩
          refine ⟨by omega, by omega, holds, fun x above below => ?_⟩
          by_cases start : x.toNat = a.toNat
          · rw [same start]
            exact here
          · exact first x (by omega) below
        · rintro ⟨lower, upper, holds, first⟩
          have past : a.toNat ≠ p.toNat := fun eq => here (same eq.symm ▸ holds)
          exact ⟨by omega, by omega, holds, fun x above below => first x (by omega) below⟩

/-- A scan depends on no byte above the one it stops at. -/
theorem findByte_congr {m m' : Memory} {value : Byte} {n : Nat} {a p : Word}
    (fits : a.toNat + n ≤ 2 ^ 64) (found : m.findByte value n a = some p)
    (agree : ∀ x : Word, x.toNat ≤ p.toNat → m' x = m x) : m'.findByte value n a = some p := by
  have spec := (findByte_eq_some fits).mp found
  apply (findByte_eq_some fits).mpr
  refine ⟨spec.1, spec.2.1, (agree p le_rfl).trans spec.2.2.1, fun x lower upper => ?_⟩
  rw [agree x (by omega)]
  exact spec.2.2.2 x lower upper

end Memory

end Machine
