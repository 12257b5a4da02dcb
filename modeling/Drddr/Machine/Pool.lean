import Mathlib.Data.List.Basic
import Mathlib.Logic.Function.Basic

/-!
# Pools of threads

Any number of threads, each with a local state, over one shared state. A step of
the pool is a step of the thread at one position; the others keep their local
states. The pool is a list, so that threads can be counted by where they are.
-/

namespace Machine

variable {γ τ α : Type*}

/-- The thread at position `k` takes the local step `act`, if both exist. -/
def poolStep (act : γ → τ → α → Option (γ × τ)) (shared : γ) (threads : List τ) (k : Nat)
    (a : α) : Option (γ × List τ) :=
  (threads[k]?).bind fun t => (act shared t a).map fun next => (next.1, threads.set k next.2)

/-- A pool step sets the thread at its position to one of its local steps. -/
theorem poolStep_set {act : γ → τ → α → Option (γ × τ)} {shared shared' : γ}
    {threads threads' : List τ} {k : Nat} {a : α}
    (h : poolStep act shared threads k a = some (shared', threads')) :
    ∃ t t', threads[k]? = some t ∧ threads' = threads.set k t' ∧
      act shared t a = some (shared', t') := by
  obtain ⟨t, found, moved⟩ := Option.bind_eq_some_iff.mp h
  obtain ⟨⟨g, t'⟩, stepped, same⟩ := Option.map_eq_some_iff.mp moved
  simp only [Prod.mk.injEq] at same
  obtain ⟨rfl, rfl⟩ := same
  exact ⟨t, t', found, rfl, stepped⟩

/-- A pool step replaces exactly one thread, by one of its local steps. -/
theorem poolStep_cases {act : γ → τ → α → Option (γ × τ)} {shared shared' : γ}
    {threads threads' : List τ} {k : Nat} {a : α}
    (h : poolStep act shared threads k a = some (shared', threads')) :
    ∃ before t t' after, threads[k]? = some t ∧ threads = before ++ t :: after ∧
      threads' = before ++ t' :: after ∧ act shared t a = some (shared', t') := by
  obtain ⟨t, t', found, rfl, stepped⟩ := poolStep_set h
  obtain ⟨inside, here⟩ := List.getElem?_eq_some_iff.mp found
  exact ⟨threads.take k, t, t', threads.drop (k + 1), found, by simp [← here],
    List.set_eq_take_append_cons_drop .. |>.trans (if_pos inside), stepped⟩

/-- Each thread of a pool in which one was replaced is the new one or was there before. -/
theorem mem_replaced {before after : List τ} {t t' other : τ}
    (member : other ∈ before ++ t' :: after) : other = t' ∨ other ∈ before ++ t :: after := by
  rw [List.mem_append, List.mem_cons] at member
  rw [List.mem_append, List.mem_cons]
  tauto

/-- What holds of every thread, and of one that replaces one of them, holds of every thread. -/
theorem forall_replaced {P : τ → Prop} {before after : List τ} {t t' : τ}
    (each : ∀ other ∈ before ++ t :: after, P other) (new : P t') :
    ∀ other ∈ before ++ t' :: after, P other := by
  intro other member
  cases mem_replaced (t := t) member with
  | inl same => exact same ▸ new
  | inr old => exact each other old

/-- The threads of a pool in which one was started. -/
theorem getElem?_started {threads : List τ} {k : Nat} {t other : τ} :
    (threads ++ [t])[k]? = some other ↔
      threads[k]? = some other ∨ k = threads.length ∧ other = t := by
  rcases Nat.lt_trichotomy k threads.length with before | rfl | after
  · rw [List.getElem?_append_left before]
    simp [Nat.ne_of_lt before]
  · simp [eq_comm]
  · have gone : threads[k]? = none := List.getElem?_eq_none (Nat.le_of_lt after)
    have goneToo : (threads ++ [t])[k]? = none :=
      List.getElem?_eq_none (by simp only [List.length_append, List.length_singleton]; omega)
    simp [gone, goneToo, Nat.ne_of_gt after]

/-! ## Counting -/

/-- The weight of a thread: one if it is counted, zero otherwise. -/
def weight (p : τ → Bool) (t : τ) : Int := if p t then 1 else 0

/-- Replacing one thread changes a count by its weight. -/
theorem countP_replaced (p : τ → Bool) (before after : List τ) (t t' : τ) :
    ((before ++ t' :: after).countP p : Int)
      = (before ++ t :: after).countP p + (weight p t' - weight p t) := by
  have one (t : τ) : ((if p t then 1 else 0 : Nat) : Int) = weight p t := by
    unfold weight
    split <;> rfl
  have mine := one t
  have next := one t'
  simp only [List.countP_append, List.countP_cons]
  omega

/-- Changing one element of a table changes a count over it by its weight. -/
theorem countP_range_update (p : τ → Bool) (f : Nat → τ) (v : τ) {i n : Nat} (inside : i < n) :
    ((List.range n).countP (fun k => p (Function.update f i v k)) : Int)
      = (List.range n).countP (fun k => p (f k)) + (weight p v - weight p (f i)) := by
  have split : List.range n
      = List.range i ++ i :: (List.range (n - i - 1)).map fun k => i + 1 + k := by
    have length : n = i + (1 + (n - i - 1)) := by omega
    conv_lhs => rw [length, List.range_add, List.range_add]
    simp [Nat.add_assoc, Function.comp_def]
  have low (k : Nat) (member : k ∈ List.range i) : Function.update f i v k = f k :=
    Function.update_of_ne (Nat.ne_of_lt (List.mem_range.mp member)) v f
  have high (k : Nat) : Function.update f i v (i + 1 + k) = f (i + 1 + k) :=
    Function.update_of_ne (by omega) v f
  have below : (List.range i).countP (fun k => p (Function.update f i v k))
      = (List.range i).countP (fun k => p (f k)) :=
    List.countP_congr fun k member => by rw [low k member]
  rw [split]
  simp only [List.countP_append, List.countP_cons, List.countP_map, Function.comp_def, high, below,
    Function.update_self, weight]
  split <;> split <;> simp_all <;> omega

end Machine
