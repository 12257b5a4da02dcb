import Mathlib.Data.Nat.Find
import Mathlib.Order.Monotone.Basic
import Drddr.Machine.Run

/-!
# Infinite runs

A run that never ends takes an event at every time. A phase of it ends if a rank never rises while
the phase lasts, and falls again and again.
-/

namespace Machine

variable {σ ε : Type*} {step : σ → ε → Option σ} {state : Nat → σ} {event : Nat → ε}

/-- A sequence of states is the run of a sequence of events. -/
def Runs (step : σ → ε → Option σ) (state : Nat → σ) (event : Nat → ε) : Prop :=
  ∀ n, step (state n) (event n) = some (state (n + 1))

/-- An invariant kept by every step holds at every time. -/
theorem Runs.invariant {I : σ → Prop} (keeps : ∀ s e t, I s → step s e = some t → I t)
    (runs : Runs step state event) (start : I (state 0)) (n : Nat) : I (state n) := by
  induction n with
  | zero => exact start
  | succ n ih => exact keeps _ _ _ ih (runs n)

/-- A phase in which a rank never rises and falls again and again comes to its end. -/
theorem leaves_of_rank {wait : σ → Prop} (rank : σ → Nat)
    (keeps : ∀ n, wait (state n) → wait (state (n + 1)) → rank (state (n + 1)) ≤ rank (state n))
    (falls : (∀ n, wait (state n)) → ∀ n, ∃ m, n ≤ m ∧ rank (state (m + 1)) < rank (state m)) :
    ∃ n, ¬wait (state n) := by
  by_contra never
  have always : ∀ n, wait (state n) := fun n => not_not.mp fun no => never ⟨n, no⟩
  have lower : Antitone fun n => rank (state n) :=
    antitone_nat_of_succ_le fun n => keeps n (always n) (always (n + 1))
  have below : ∀ r n, rank (state n) = r → False := by
    intro r
    induction r using Nat.strong_induction_on with
    | _ r ih =>
      intro n here
      obtain ⟨m, later, fall⟩ := falls always n
      have most : rank (state m) ≤ rank (state n) := lower later
      exact ih (rank (state (m + 1))) (by omega) (m + 1) rfl
  exact below _ 0 rfl

/-- The first time at which a phase has ended comes right after a time at which it lasted. -/
theorem exists_last {wait : σ → Prop} (start : wait (state 0)) (ended : ∃ n, ¬wait (state n)) :
    ∃ n, (∀ m, m ≤ n → wait (state m)) ∧ ¬wait (state (n + 1)) := by
  classical
  have first := Nat.find_spec ended
  have before := fun m => @Nat.find_min _ _ ended m
  cases found : Nat.find ended with
  | zero =>
    rw [found] at first
    exact absurd start first
  | succ n =>
    rw [found] at first
    refine ⟨n, fun m early => not_not.mp (before m ?_), first⟩
    omega

/-- What happens from some time on happens for a first time. -/
theorem exists_first {tick : Nat → Bool} {n : Nat} (ticks : ∃ l, n ≤ l ∧ tick l = true) :
    ∃ l, n ≤ l ∧ tick l = true ∧ ∀ m, n ≤ m → m < l → tick m = false := by
  classical
  refine ⟨Nat.find ticks, (Nat.find_spec ticks).1, (Nat.find_spec ticks).2, fun m late early => ?_⟩
  exact Bool.eq_false_iff.mpr fun here => Nat.find_min ticks early ⟨late, here⟩

/-- A counter stays as it is until it is raised. -/
theorem count_eq {count : Nat → Nat} {tick : Nat → Bool}
    (counts : ∀ n, count (n + 1) = count n + (tick n).toNat) {n l : Nat} (late : n ≤ l)
    (before : ∀ m, n ≤ m → m < l → tick m = false) : count l = count n := by
  induction l, late using Nat.le_induction with
  | base => rfl
  | succ l late ih =>
    rw [counts, before l late (Nat.lt_succ_self l), Bool.toNat_false, Nat.add_zero]
    exact ih fun m here early => before m here (early.trans (Nat.lt_succ_self l))

/-- A counter that is raised by one again and again takes every value, right before it is raised. -/
theorem exists_tick {count : Nat → Nat} {tick : Nat → Bool}
    (counts : ∀ n, count (n + 1) = count n + (tick n).toNat) {n value : Nat}
    (again : ∀ m, n ≤ m → ∃ l, m ≤ l ∧ tick l = true) (least : count n ≤ value) :
    ∃ l, n ≤ l ∧ tick l = true ∧ count l = value := by
  induction wait : value - count n generalizing n with
  | zero =>
    obtain ⟨first, late, ticks, before⟩ := exists_first (again n le_rfl)
    refine ⟨first, late, ticks, ?_⟩
    have same := count_eq counts late before
    omega
  | succ wait ih =>
    obtain ⟨first, late, ticks, before⟩ := exists_first (again n le_rfl)
    have same := count_eq counts late before
    have next : count (first + 1) = count n + 1 := by
      rw [counts, ticks, same]
      rfl
    obtain ⟨l, later, found⟩ :=
      @ih (first + 1) (fun m behind => again m (by omega)) (by omega) (by omega)
    exact ⟨l, by omega, found⟩

/-- A run whose last state some event keeps goes on for ever with that event. -/
theorem exists_runs {s t : σ} {es : List ε} {e : ε} (ran : run step s es = some t)
    (stays : step t e = some t) :
    ∃ state event, Runs step state event ∧ state 0 = s ∧
      (∀ n, event n = es.getD n e) ∧ ∀ n, es.length ≤ n → state n = t := by
  induction es generalizing s with
  | nil =>
    obtain rfl := Option.some.inj ran
    exact ⟨fun _ => s, fun _ => e, fun _ => stays, rfl, fun _ => rfl, fun _ _ => rfl⟩
  | cons e' es ih =>
    obtain ⟨u, first, rest⟩ := run_cons_eq_some.mp ran
    obtain ⟨state, event, runs, start, events, last⟩ := ih rest
    refine ⟨fun n => n.casesOn s state, fun n => n.casesOn e' event, ?_, rfl, ?_, ?_⟩
    · intro n
      cases n with
      | zero =>
        show step s e' = some (state 0)
        rw [start]
        exact first
      | succ n => exact runs n
    · intro n
      cases n with
      | zero => rfl
      | succ n => exact events n
    · intro n late
      cases n with
      | zero => exact absurd late (Nat.not_succ_le_zero es.length)
      | succ n => exact last n (Nat.le_of_succ_le_succ late)

end Machine
