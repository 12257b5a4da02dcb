import Mathlib.Logic.Function.Iterate
import Mathlib.Data.Nat.Basic

/-!
# Machines that run on

A total step, taken again and again. What every step keeps holds throughout. A machine whose steps
lower a measure, unless they wait, comes to its end or waits forever.
-/

namespace Machine

variable {σ : Type*} {step : σ → σ}

/-- An invariant holds throughout. -/
theorem iterate_invariant {I : σ → Prop} (keeps : ∀ s, I s → I (step s)) {s : σ} (start : I s)
    (k : Nat) : I (step^[k] s) := by
  induction k with
  | zero => exact start
  | succ k ih =>
    rw [Function.iterate_succ_apply']
    exact keeps _ ih

/-- A run comes to a state. -/
def Reaches (step : σ → σ) (s t : σ) : Prop := ∃ k, step^[k] s = t

/-- A state reaches itself. -/
theorem Reaches.refl (s : σ) : Reaches step s s := ⟨0, rfl⟩

/-- What is reached leads on by one step. -/
theorem Reaches.next {s t u : σ} (reaches : Reaches step s t) (taken : step t = u) :
    Reaches step s u := by
  obtain ⟨k, rfl⟩ := reaches
  refine ⟨k + 1, ?_⟩
  rw [Function.iterate_succ_apply', taken]

/-- What every step preserves holds in a state that a run comes to. -/
theorem Reaches.invariant {I : σ → Prop} (keeps : ∀ s, I s → I (step s)) {s t : σ} (start : I s)
    (reaches : Reaches step s t) : I t := by
  obtain ⟨k, rfl⟩ := reaches
  exact iterate_invariant keeps start k

/-- A run is simulated when each of its steps is, by no step or by several. -/
theorem Reaches.simulated {τ : Type*} {Other : τ → τ → Prop} (refl : ∀ x, Other x x)
    (trans : ∀ x y z, Other x y → Other y z → Other x z) {I : σ → Prop}
    (keeps : ∀ s, I s → I (step s)) {image : σ → τ}
    (follows : ∀ s, I s → Other (image s) (image (step s))) {s t : σ} (start : I s)
    (reaches : Reaches step s t) : Other (image s) (image t) := by
  obtain ⟨k, rfl⟩ := reaches
  induction k with
  | zero => exact refl _
  | succ k ih =>
    rw [Function.iterate_succ_apply']
    exact trans _ _ _ ih (follows _ (iterate_invariant keeps start k))

/-- A state in which a run stays is its last. -/
theorem iterate_of_le {s : σ} {k m : Nat} (fixed : step (step^[k] s) = step^[k] s) (le : k ≤ m) :
    step^[m] s = step^[k] s := by
  obtain ⟨d, rfl⟩ := Nat.exists_eq_add_of_le' le
  rw [Function.iterate_add_apply]
  exact Function.iterate_fixed fixed d

/-- Steps that are not the last and do not wait use up a measure. -/
theorem ends_or_waits {I ended waits : σ → Prop} (measure : σ → Nat)
    (keeps : ∀ s, I s → I (step s))
    (progress : ∀ s, I s → ended s ∨ measure (step s) < measure s ∨
      waits s ∧ measure (step s) = measure s) {s : σ} (start : I s) :
    (∃ k, ended (step^[k] s)) ∨ ∃ k, ∀ m, k ≤ m → waits (step^[m] s) := by
  induction size : measure s using Nat.strong_induction_on generalizing s with
  | _ size' ih =>
    by_cases smaller : ∃ k, measure (step^[k] s) < measure s
    · obtain ⟨k, less⟩ := smaller
      rcases ih _ (size ▸ less) (iterate_invariant keeps start k) rfl with ⟨j, last⟩ | ⟨j, always⟩
      · refine .inl ⟨j + k, ?_⟩
        rw [Function.iterate_add_apply]
        exact last
      · refine .inr ⟨j + k, fun m le => ?_⟩
        have later := always (m - k) (by omega)
        rw [← Function.iterate_add_apply, Nat.sub_add_cancel (by omega)] at later
        exact later
    · by_cases reached : ∃ k, ended (step^[k] s)
      · exact .inl reached
      · rw [not_exists] at smaller reached
        have constant : ∀ k, measure (step^[k] s) = measure s := by
          intro k
          induction k with
          | zero => rfl
          | succ k same =>
            have least := smaller (k + 1)
            rw [Function.iterate_succ_apply'] at least ⊢
            rcases progress _ (iterate_invariant keeps start k) with last | less | ⟨-, equal⟩
            · exact absurd last (reached k)
            · omega
            · rw [equal, same]
        refine .inr ⟨0, fun m _ => ?_⟩
        have now := constant m
        have next := constant (m + 1)
        rw [Function.iterate_succ_apply'] at next
        rcases progress _ (iterate_invariant keeps start m) with last | less | ⟨waiting, -⟩
        · exact absurd last (reached m)
        · omega
        · exact waiting

end Machine
