import Mathlib.Data.List.Basic

/-!
# Runs of partial steps

A step takes a state and an event and refuses a disabled event. A run takes a
list of events in order. Invariants of runs are packaged once: with the events
taken so far, with a side condition on each event, and with neither.
-/

namespace Machine

variable {σ ε : Type*}

/-- Take the events of a list in order; a disabled event refuses the whole run. -/
def run (step : σ → ε → Option σ) : σ → List ε → Option σ
  | s, [] => some s
  | s, e :: es => (step s e).bind fun t => run step t es

/-- Every event of the run is taken in a state that admits it. -/
def Admits (step : σ → ε → Option σ) (ok : σ → ε → Prop) : σ → List ε → Prop
  | _, [] => True
  | s, e :: es => ok s e ∧ ∀ t, step s e = some t → Admits step ok t es

instance decidableAdmits (step : σ → ε → Option σ) (ok : σ → ε → Prop)
    [∀ s e, Decidable (ok s e)] : (s : σ) → (es : List ε) → Decidable (Admits step ok s es)
  | _, [] => isTrue trivial
  | s, e :: es =>
    match taken : step s e with
    | none => decidable_of_iff (ok s e) (by simp [Admits, taken])
    | some t =>
      have := decidableAdmits step ok t es
      decidable_of_iff (ok s e ∧ Admits step ok t es) (by simp [Admits, taken])

/-- A run whose events are admitted everywhere is admitted. -/
theorem admits_of_forall {step : σ → ε → Option σ} {ok : σ → ε → Prop} {es : List ε}
    (always : ∀ e ∈ es, ∀ s, ok s e) (s : σ) : Admits step ok s es := by
  induction es generalizing s with
  | nil => exact trivial
  | cons e es ih =>
    have rest : ∀ f ∈ es, ∀ s, ok s f := fun f member => always f (List.mem_cons_of_mem e member)
    exact ⟨always e List.mem_cons_self s, fun t _ => ih rest t⟩

/-- A run is admitted if its first event is, and the rest from the next state on. -/
theorem admits_cons {step : σ → ε → Option σ} {ok : σ → ε → Prop} {s t : σ} {e : ε} {es : List ε}
    (stepped : step s e = some t) (now : ok s e) (rest : Admits step ok t es) :
    Admits step ok s (e :: es) :=
  ⟨now, fun u other => by
    rw [stepped] at other
    exact Option.some.inj other ▸ rest⟩

/-- A nonempty run is its first step and the run of the remaining events. -/
theorem run_cons_eq_some {step : σ → ε → Option σ} {s u : σ} {e : ε} {es : List ε} :
    run step s (e :: es) = some u ↔ ∃ t, step s e = some t ∧ run step t es = some u :=
  Option.bind_eq_some_iff

/-- Runs compose. -/
theorem run_append (step : σ → ε → Option σ) (s : σ) (es fs : List ε) :
    run step s (es ++ fs) = (run step s es).bind fun t => run step t fs := by
  induction es generalizing s with
  | nil => rfl
  | cons e es ih =>
    simp only [List.cons_append, run]
    cases step s e with
    | none => rfl
    | some t => exact ih t

/-- What admits the events of a run may be weakened for these events. -/
theorem Admits.imp {step : σ → ε → Option σ} {ok ok' : σ → ε → Prop} {s : σ} {es : List ε}
    (admitted : Admits step ok s es) (weaker : ∀ e ∈ es, ∀ s, ok s e → ok' s e) :
    Admits step ok' s es := by
  induction es generalizing s with
  | nil => exact trivial
  | cons e es ih =>
    have rest := fun f member => weaker f (List.mem_cons_of_mem e member)
    exact ⟨weaker e List.mem_cons_self s admitted.1, fun t taken => ih (admitted.2 t taken) rest⟩

/-- What is left of an admitted run is admitted. -/
theorem Admits.drop {step : σ → ε → Option σ} {ok : σ → ε → Prop} {s t : σ} {es fs : List ε}
    (admitted : Admits step ok s (es ++ fs)) (ran : run step s es = some t) :
    Admits step ok t fs := by
  induction es generalizing s with
  | nil => exact Option.some.inj ran ▸ admitted
  | cons e es ih =>
    obtain ⟨u, first, rest⟩ := run_cons_eq_some.mp ran
    exact ih (admitted.2 u first) rest

/-- The beginning of an admitted run is admitted. -/
theorem Admits.take {step : σ → ε → Option σ} {ok : σ → ε → Prop} {s : σ} {es fs : List ε}
    (admitted : Admits step ok s (es ++ fs)) : Admits step ok s es := by
  induction es generalizing s with
  | nil => exact trivial
  | cons e es ih => exact ⟨admitted.1, fun t first => ih (admitted.2 t first)⟩

/-- A run passes a state. -/
def Passes (step : σ → ε → Option σ) (s : σ) (es : List ε) (t : σ) : Prop :=
  ∃ past, past <+: es ∧ run step s past = some t

/-- What a run passes, it passes when it goes on as well. -/
theorem Passes.mono {step : σ → ε → Option σ} {s t : σ} {es fs : List ε}
    (passes : Passes step s es t) (longer : es <+: fs) : Passes step s fs t := by
  obtain ⟨past, early, ran⟩ := passes
  exact ⟨past, early.trans longer, ran⟩

/-- What a run passes after its first event, the whole run passes. -/
theorem Passes.cons {step : σ → ε → Option σ} {s t u : σ} {e : ε} {es : List ε}
    (stepped : step s e = some t) (passes : Passes step t es u) : Passes step s (e :: es) u := by
  obtain ⟨past, early, ran⟩ := passes
  exact ⟨e :: past, (List.prefix_cons_inj e).mpr early, run_cons_eq_some.mpr ⟨t, stepped, ran⟩⟩

/-- A run passes the state that it begins in. -/
theorem Passes.start (step : σ → ε → Option σ) (s : σ) (es : List ε) : Passes step s es s :=
  ⟨[], List.nil_prefix, rfl⟩

/-- A run of admitted events leads from one state to another. -/
def Leads (step : σ → ε → Option σ) (ok : σ → ε → Prop) (s t : σ) : Prop :=
  ∃ es, Admits step ok s es ∧ run step s es = some t

/-- An admitted step leads to the next state. -/
theorem Leads.step {step : σ → ε → Option σ} {ok : σ → ε → Prop} {s t : σ} {e : ε}
    (admitted : ok s e) (taken : step s e = some t) : Leads step ok s t :=
  ⟨[e], admits_cons taken admitted trivial, run_cons_eq_some.mpr ⟨t, taken, rfl⟩⟩

/-- One run goes on where another one has led. -/
theorem Leads.trans {step : σ → ε → Option σ} {ok : σ → ε → Prop} {s t u : σ}
    (first : Leads step ok s t) (second : Leads step ok t u) : Leads step ok s u := by
  obtain ⟨es, admitted, ran⟩ := first
  obtain ⟨fs, admitted', ran'⟩ := second
  refine ⟨es ++ fs, ?_, ?_⟩
  · clear ran'
    induction es generalizing s with
    | nil => exact Option.some.inj ran ▸ admitted'
    | cons e es ih =>
      obtain ⟨v, taken, rest⟩ := run_cons_eq_some.mp ran
      exact admits_cons taken admitted.1 (ih (admitted.2 v taken) rest)
  · rw [run_append, ran]
    exact ran'

/-- An invariant of the state and of the events taken so far holds after every run. -/
theorem run_history {step : σ → ε → Option σ} {I : List ε → σ → Prop}
    (keeps : ∀ past s e t, I past s → step s e = some t → I (past ++ [e]) t)
    {past es : List ε} {s t : σ} (start : I past s) (ran : run step s es = some t) :
    I (past ++ es) t := by
  induction es generalizing past s with
  | nil =>
    obtain rfl := Option.some.inj ran
    simpa using start
  | cons e es ih =>
    obtain ⟨u, first, rest⟩ := run_cons_eq_some.mp ran
    simpa using ih (keeps past s e u start first) rest

/-- An invariant kept by every admitted step holds after every admitted run. -/
theorem run_admitted {step : σ → ε → Option σ} {ok : σ → ε → Prop} {I : σ → Prop}
    (keeps : ∀ s e t, I s → ok s e → step s e = some t → I t)
    {es : List ε} {s t : σ} (start : I s) (admitted : Admits step ok s es)
    (ran : run step s es = some t) : I t := by
  induction es generalizing s with
  | nil => exact Option.some.inj ran ▸ start
  | cons e es ih =>
    obtain ⟨u, first, rest⟩ := run_cons_eq_some.mp ran
    exact ih (keeps s e u start admitted.1 first) (admitted.2 u first) rest

/-- An invariant kept by every admitted step from a state that the run passes holds after it. -/
theorem run_passed {step : σ → ε → Option σ} {ok : σ → ε → Prop} {I : σ → Prop} {es : List ε}
    {s t : σ} (keeps : ∀ u e v, Passes step s es u → I u → ok u e → step u e = some v → I v)
    (start : I s) (admitted : Admits step ok s es) (ran : run step s es = some t) : I t := by
  induction es generalizing s with
  | nil => exact Option.some.inj ran ▸ start
  | cons e es ih =>
    obtain ⟨u, first, rest⟩ := run_cons_eq_some.mp ran
    refine ih ?_ ?_ (admitted.2 u first) rest
    · intro v f w passed
      exact keeps v f w (passed.cons first)
    · exact keeps s e u (Passes.start ..) start admitted.1 first

/-- An invariant kept by every step holds after every run. -/
theorem run_invariant {step : σ → ε → Option σ} {I : σ → Prop}
    (keeps : ∀ s e t, I s → step s e = some t → I t)
    {es : List ε} {s t : σ} (start : I s) (ran : run step s es = some t) : I t :=
  @run_history σ ε step (fun _ => I) (fun _ s e t => keeps s e t) [] es s t start ran

/-- What a step keeps exactly when it is admitted holds in every state of a run exactly when the
run is admitted. -/
theorem throughout_iff_admits {step : σ → ε → Option σ} {ok : σ → ε → Prop} {I : σ → Prop}
    (total : ∀ s e, ∃ t, step s e = some t)
    (keeps : ∀ s e t, I s → step s e = some t → (I t ↔ ok s e)) {s : σ} (start : I s)
    (es : List ε) :
    (∀ past, past <+: es → ∀ t, run step s past = some t → I t) ↔ Admits step ok s es := by
  induction es generalizing s with
  | nil =>
    refine ⟨fun _ => trivial, fun _ past before t ran => ?_⟩
    rw [List.prefix_nil.mp before] at ran
    exact Option.some.inj ran ▸ start
  | cons e es ih =>
    constructor
    · intro throughout
      obtain ⟨t, taken⟩ := total s e
      have first : I t :=
        throughout [e] (List.prefix_append [e] es) t (run_cons_eq_some.mpr ⟨t, taken, rfl⟩)
      refine admits_cons taken ((keeps s e t start taken).mp first) ((ih first).mp ?_)
      intro past before u ran
      exact throughout (e :: past) ((List.prefix_cons_inj e).mpr before) u
        (run_cons_eq_some.mpr ⟨t, taken, ran⟩)
    · intro admitted past before u ran
      cases past with
      | nil => exact Option.some.inj ran ▸ start
      | cons e' past =>
        obtain ⟨rfl, rest⟩ := List.cons_prefix_cons.mp before
        obtain ⟨t, taken, ran⟩ := run_cons_eq_some.mp ran
        have first : I t := (keeps s e' t start taken).mpr admitted.1
        exact (ih first).mpr (admitted.2 t taken) past rest u ran

end Machine
