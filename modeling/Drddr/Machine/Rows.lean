import Drddr.Machine.Run
import Mathlib.Data.Sigma.Basic
import Mathlib.Logic.Function.Basic

/-!
# Rows that are written under a lock and read without it

A table of rows with several columns. Whoever holds the lock takes a free row, writes its cells
one after the other and then tells the processors, each at its own time, which rows are in use; or
it frees rows and tells them. A processor may trap on rows that it has been told of. It records
which they were, the trap asks that record for a row, and reads the cells of the row one after the
other, without the lock. If the row is in use when it is asked for, is not just being written, and
is not freed while it is read, then what is read is what the row was taken for.
-/

namespace Machine

variable {ι κ γ δ : Type*} {ν : γ → Type*}

/-- What the holder of the lock has left to do. -/
inductive RowHolder (ι κ γ : Type*) where
  /-- The row is taken, these of its cells are not written and these processors not told. -/
  | filling (i : ι) (left : List γ) (cpus : List κ)
  /-- These rows are to be freed, and then these processors told. -/
  | freeing (rows : List ι) (cpus : List κ)

/-- A trap on some processor. -/
inductive RowReader (ι κ : Type*) (ν : γ → Type*) where
  /-- It has not yet asked which row it is for. -/
  | entered (cpu : κ)
  /-- It reads the cells of a row, and has read these. -/
  | reading (i : ι) (got : List (Sigma ν))
  /-- It is for no row. -/
  | dismissed

/-- The table, the lock, the processors and the traps. -/
structure Rows (ι κ δ : Type*) (ν : γ → Type*) where
  used : ι → Bool
  cell : ι → (c : γ) → ν c
  /-- What a row was last taken for. -/
  record : ι → (c : γ) → ν c
  /-- The rows that a processor has been told of. -/
  armed : κ → ι → Bool
  /-- What a processor has recorded of its traps. -/
  status : κ → δ
  holder : Option (RowHolder ι κ γ)
  readers : List (RowReader ι κ ν)

/-- A step of the holder of the lock, or of a processor. -/
inductive RowEvent (ι κ : Type*) (ν : γ → Type*) where
  /-- The lock is taken and a free row with it. -/
  | fill (i : ι) (record : (c : γ) → ν c)
  /-- The lock is taken to free rows. -/
  | free (rows : List ι)
  /-- The next write of the holder. -/
  | write
  /-- The holder has a processor told. -/
  | tell (cpu : κ)
  /-- The lock is given back. -/
  | unlock
  /-- A processor traps, on one of these rows at least. -/
  | trap (cpu : κ) (rows : List ι)
  /-- The trap at a position asks which row it is for. -/
  | ask (k : Nat)
  /-- The trap at a position reads its next cell. -/
  | read (k : Nat)

/-- The order in which cells are written, the order in which they are read, and the processors, with
what they record of a trap and what the record answers. -/
structure RowLayout (ι κ γ δ : Type*) where
  columns : List γ
  printed : List γ
  cpus : List κ
  note : δ → List ι → δ
  query : δ → Option ι
  /-- No cell is read that is not written. -/
  covers : ∀ c ∈ printed, c ∈ columns

variable [DecidableEq ι] [DecidableEq κ] [DecidableEq γ]

/-- The trap asks which row it is for. -/
def RowReader.asked (layout : RowLayout ι κ γ δ) (s : Rows ι κ δ ν) (cpu : κ) : RowReader ι κ ν :=
  match layout.query (s.status cpu) with
  | some i => .reading i []
  | none => .dismissed

/-- The cells of a row after the next one has been read. -/
def nextCells (layout : RowLayout ι κ γ δ) (s : Rows ι κ δ ν) (i : ι) (got : List (Sigma ν)) :
    List (Sigma ν) :=
  match layout.printed[got.length]? with
  | some c => got ++ [⟨c, s.cell i c⟩]
  | none => got

/-- Run one step. -/
def rowStep (layout : RowLayout ι κ γ δ) (s : Rows ι κ δ ν) : RowEvent ι κ ν → Option (Rows ι κ δ ν)
  | .fill i record =>
    if s.holder.isNone ∧ s.used i = false then
      some { s with
        used := Function.update s.used i true
        record := Function.update s.record i record
        holder := some (.filling i layout.columns layout.cpus) }
    else none
  | .free rows =>
    if s.holder.isNone then some { s with holder := some (.freeing rows layout.cpus) } else none
  | .write =>
    match s.holder with
    | some (.filling i (c :: left) cpus) =>
      some { s with
        cell := Function.update s.cell i (Function.update (s.cell i) c (s.record i c))
        holder := some (.filling i left cpus) }
    | some (.freeing (i :: rows) cpus) =>
      some { s with
        used := Function.update s.used i false
        holder := some (.freeing rows cpus) }
    | _ => none
  | .tell cpu =>
    match s.holder with
    | some (.filling i [] cpus) =>
      if cpu ∈ cpus then
        some { s with
          armed := Function.update s.armed cpu s.used
          holder := some (.filling i [] (cpus.erase cpu)) }
      else none
    | some (.freeing [] cpus) =>
      if cpu ∈ cpus then
        some { s with
          armed := Function.update s.armed cpu s.used
          holder := some (.freeing [] (cpus.erase cpu)) }
      else none
    | _ => none
  | .unlock =>
    match s.holder with
    | some (.filling _ [] []) | some (.freeing [] []) => some { s with holder := none }
    | _ => none
  | .trap cpu rows =>
    if rows.any (s.armed cpu) then
      some { s with
        status := Function.update s.status cpu (layout.note (s.status cpu) rows)
        readers := s.readers ++ [.entered cpu] }
    else none
  | .ask k =>
    match s.readers[k]? with
    | some (.entered cpu) => some { s with readers := s.readers.set k (.asked layout s cpu) }
    | _ => none
  | .read k =>
    match s.readers[k]? with
    | some (.reading i got) =>
      some { s with readers := s.readers.set k (.reading i (nextCells layout s i got)) }
    | _ => none

/-- The step frees the row. -/
def FreesRow (i : ι) (s : Rows ι κ δ ν) : RowEvent ι κ ν → Prop
  | .write => ∃ rows cpus, s.holder = some (.freeing (i :: rows) cpus)
  | _ => False

/-! ## Everything a step can do -/

/-- The moves of the holder and of the processors. -/
inductive RowMove (layout : RowLayout ι κ γ δ) (s : Rows ι κ δ ν) :
    RowEvent ι κ ν → Rows ι κ δ ν → Prop where
  | fill (i : ι) (record : (c : γ) → ν c) (unlocked : s.holder = none) (unused : s.used i = false) :
      RowMove layout s (.fill i record)
        { s with
          used := Function.update s.used i true
          record := Function.update s.record i record
          holder := some (.filling i layout.columns layout.cpus) }
  | free (rows : List ι) (unlocked : s.holder = none) :
      RowMove layout s (.free rows) { s with holder := some (.freeing rows layout.cpus) }
  /-- A cell is written. -/
  | cell (i : ι) (c : γ) (left : List γ) (cpus : List κ)
      (held : s.holder = some (.filling i (c :: left) cpus)) :
      RowMove layout s .write
        { s with
          cell := Function.update s.cell i (Function.update (s.cell i) c (s.record i c))
          holder := some (.filling i left cpus) }
  /-- A row is freed. -/
  | unuse (i : ι) (rows : List ι) (cpus : List κ)
      (held : s.holder = some (.freeing (i :: rows) cpus)) :
      RowMove layout s .write
        { s with
          used := Function.update s.used i false
          holder := some (.freeing rows cpus) }
  /-- A processor is told of a row that has been written. -/
  | arm (cpu : κ) (i : ι) (cpus : List κ) (held : s.holder = some (.filling i [] cpus))
      (untold : cpu ∈ cpus) :
      RowMove layout s (.tell cpu)
        { s with
          armed := Function.update s.armed cpu s.used
          holder := some (.filling i [] (cpus.erase cpu)) }
  /-- It is told that rows have been freed. -/
  | disarm (cpu : κ) (cpus : List κ) (held : s.holder = some (.freeing [] cpus))
      (untold : cpu ∈ cpus) :
      RowMove layout s (.tell cpu)
        { s with
          armed := Function.update s.armed cpu s.used
          holder := some (.freeing [] (cpus.erase cpu)) }
  | unlock (done : (∃ i, s.holder = some (.filling i [] [])) ∨ s.holder = some (.freeing [] [])) :
      RowMove layout s .unlock { s with holder := none }
  | trap (cpu : κ) (rows : List ι) (armed : rows.any (s.armed cpu) = true) :
      RowMove layout s (.trap cpu rows)
        { s with
          status := Function.update s.status cpu (layout.note (s.status cpu) rows)
          readers := s.readers ++ [.entered cpu] }
  | ask (k : Nat) (cpu : κ) (here : s.readers[k]? = some (.entered cpu)) :
      RowMove layout s (.ask k) { s with readers := s.readers.set k (.asked layout s cpu) }
  | read (k : Nat) (i : ι) (got : List (Sigma ν)) (here : s.readers[k]? = some (.reading i got)) :
      RowMove layout s (.read k)
        { s with readers := s.readers.set k (.reading i (nextCells layout s i got)) }

variable {layout : RowLayout ι κ γ δ} {s t : Rows ι κ δ ν} {event : RowEvent ι κ ν}

/-- Every step is one of the moves. -/
theorem rowStep_move (stepped : rowStep layout s event = some t) : RowMove layout s event t := by
  cases event with
  | fill i record =>
    obtain ⟨⟨unlocked, unused⟩, same⟩ := Option.ite_none_right_eq_some.mp stepped
    cases same
    exact .fill i record (Option.isNone_iff_eq_none.mp unlocked) unused
  | free rows =>
    obtain ⟨unlocked, same⟩ := Option.ite_none_right_eq_some.mp stepped
    cases same
    exact .free rows (Option.isNone_iff_eq_none.mp unlocked)
  | write =>
    simp only [rowStep] at stepped
    split at stepped
    · cases stepped
      exact .cell _ _ _ _ ‹_›
    · cases stepped
      exact .unuse _ _ _ ‹_›
    · contradiction
  | tell cpu =>
    simp only [rowStep] at stepped
    split at stepped
    · obtain ⟨untold, same⟩ := Option.ite_none_right_eq_some.mp stepped
      cases same
      exact .arm cpu _ _ ‹_› untold
    · obtain ⟨untold, same⟩ := Option.ite_none_right_eq_some.mp stepped
      cases same
      exact .disarm cpu _ ‹_› untold
    · contradiction
  | unlock =>
    simp only [rowStep] at stepped
    split at stepped
    · cases stepped
      exact .unlock (.inl ⟨_, ‹_›⟩)
    · cases stepped
      exact .unlock (.inr ‹_›)
    · contradiction
  | trap cpu rows =>
    obtain ⟨armed, same⟩ := Option.ite_none_right_eq_some.mp stepped
    cases same
    exact .trap cpu rows armed
  | ask k =>
    simp only [rowStep] at stepped
    split at stepped
    · cases stepped
      exact .ask k _ ‹_›
    · contradiction
  | read k =>
    simp only [rowStep] at stepped
    split at stepped
    · cases stepped
      exact .read k _ _ ‹_›
    · contradiction

/-! ## The invariant -/

/-- What holds between any two steps. -/
structure RowsInvariant (layout : RowLayout ι κ γ δ) (s : Rows ι κ δ ν) : Prop where
  /-- A processor is told in time that a row is free. -/
  told : ∀ cpu i, s.armed cpu i = true → s.used i = true ∨
    ∃ rows cpus, s.holder = some (.freeing rows cpus) ∧ cpu ∈ cpus
  known : ∀ cpu i, s.armed cpu i = true → cpu ∈ layout.cpus
  /-- As long as there are rows to free, nobody has been told. -/
  whole : ∀ i rows cpus, s.holder = some (.freeing (i :: rows) cpus) → cpus = layout.cpus
  /-- No other processors are told. -/
  filling : ∀ i left cpus, s.holder = some (.filling i left cpus) → cpus ⊆ layout.cpus
  freeing : ∀ rows cpus, s.holder = some (.freeing rows cpus) → cpus ⊆ layout.cpus
  /-- Nobody traps on a row that is being written. -/
  apart : ∀ i c left cpus, s.holder = some (.filling i (c :: left) cpus) →
    ∀ cpu, s.armed cpu i = false
  /-- A row in use holds what it was taken for, as far as that has been written. -/
  written : ∀ i, s.used i = true → ∀ c ∈ layout.columns,
    (∀ left cpus, s.holder = some (.filling i left cpus) → c ∉ left) → s.cell i c = s.record i c

omit [DecidableEq ι] [DecidableEq κ] [DecidableEq γ] in
/-- With the lock free, nobody is told of a row that is not in use. -/
theorem RowsInvariant.unarmed (inv : RowsInvariant layout s) (unlocked : s.holder = none) {i : ι}
    (unused : s.used i = false) (cpu : κ) : s.armed cpu i = false := by
  refine Bool.eq_false_iff.mpr fun armed => ?_
  rcases inv.told cpu i armed with used | ⟨rows, cpus, held, -⟩
  · exact Bool.noConfusion (unused.symm.trans used)
  · exact absurd (unlocked.symm.trans held) (by simp)

omit [DecidableEq κ] [DecidableEq γ] in
/-- Taking the lock for a row keeps the invariant. -/
theorem RowsInvariant.fill (inv : RowsInvariant layout s) {i : ι} (record : (c : γ) → ν c)
    (unlocked : s.holder = none) (unused : s.used i = false) :
    RowsInvariant layout { s with
      used := Function.update s.used i true
      record := Function.update s.record i record
      holder := some (.filling i layout.columns layout.cpus) } := by
  constructor
  · intro cpu j armed
    left
    show Function.update s.used i true j = true
    by_cases same : j = i
    · rw [same, Function.update_self]
    · rw [Function.update_of_ne same]
      refine (inv.told cpu j armed).resolve_right ?_
      rintro ⟨rows, cpus, held, -⟩
      exact absurd (unlocked.symm.trans held) (by simp)
  · exact inv.known
  · intro j rows cpus held
    exact absurd held (by simp)
  · intro j left cpus held
    obtain ⟨-, -, rfl⟩ := RowHolder.filling.inj (Option.some.inj held)
    exact List.Subset.refl _
  · intro rows cpus held
    exact absurd held (by simp)
  · intro j c left cpus held cpu
    obtain ⟨rfl, -, -⟩ := RowHolder.filling.inj (Option.some.inj held)
    exact inv.unarmed unlocked unused cpu
  · intro j used c column settled
    have other : j ≠ i := fun same => by
      subst same
      exact settled _ _ rfl column
    show s.cell j c = Function.update s.record i record j c
    rw [Function.update_of_ne other]
    refine inv.written j ?_ c column fun left cpus held =>
      absurd (unlocked.symm.trans held) (by simp)
    exact (Function.update_of_ne other ..).symm.trans used

omit [DecidableEq κ] in
/-- Writing a cell keeps the invariant. -/
theorem RowsInvariant.cell (inv : RowsInvariant layout s) {i : ι} {c : γ} {left : List γ}
    {cpus : List κ} (held : s.holder = some (.filling i (c :: left) cpus)) :
    RowsInvariant layout { s with
      cell := Function.update s.cell i (Function.update (s.cell i) c (s.record i c))
      holder := some (.filling i left cpus) } := by
  constructor
  · intro cpu j armed
    refine .inl ((inv.told cpu j armed).resolve_right ?_)
    rintro ⟨rows, others, freeing, -⟩
    exact absurd (held.symm.trans freeing) (by simp)
  · exact inv.known
  · intro j rows others now
    exact absurd now (by simp)
  · intro j later others now
    obtain ⟨-, -, rfl⟩ := RowHolder.filling.inj (Option.some.inj now)
    exact inv.filling i _ _ held
  · intro rows others now
    exact absurd now (by simp)
  · intro j d later others now cpu
    obtain ⟨rfl, -, -⟩ := RowHolder.filling.inj (Option.some.inj now)
    exact inv.apart _ _ _ _ held cpu
  · intro j used d column settled
    show Function.update s.cell i (Function.update (s.cell i) c (s.record i c)) j d = s.record j d
    by_cases row : j = i
    · subst row
      rw [Function.update_self]
      by_cases same : d = c
      · subst same
        rw [Function.update_self]
      · rw [Function.update_of_ne same]
        refine inv.written j used d column fun before others now => ?_
        obtain ⟨-, rfl, -⟩ := RowHolder.filling.inj (Option.some.inj (held.symm.trans now))
        intro inside
        exact settled _ _ rfl ((List.mem_cons.mp inside).resolve_left same)
    · rw [Function.update_of_ne row]
      refine inv.written j used d column fun before others now => ?_
      obtain ⟨rfl, -, -⟩ := RowHolder.filling.inj (Option.some.inj (held.symm.trans now))
      exact absurd rfl row

omit [DecidableEq κ] [DecidableEq γ] in
/-- Freeing a row keeps the invariant. -/
theorem RowsInvariant.unuse (inv : RowsInvariant layout s) {i : ι} {rows : List ι} {cpus : List κ}
    (held : s.holder = some (.freeing (i :: rows) cpus)) :
    RowsInvariant layout { s with
      used := Function.update s.used i false
      holder := some (.freeing rows cpus) } := by
  have all := inv.whole i rows cpus held
  constructor
  · intro cpu j armed
    exact .inr ⟨rows, cpus, rfl, all ▸ inv.known cpu j armed⟩
  · exact inv.known
  · intro j later others now
    obtain ⟨-, rfl⟩ := RowHolder.freeing.inj (Option.some.inj now)
    exact all
  · intro j left others now
    exact absurd now (by simp)
  · intro later others now
    obtain ⟨-, rfl⟩ := RowHolder.freeing.inj (Option.some.inj now)
    exact inv.freeing _ _ held
  · intro j c left others now
    exact absurd now (by simp)
  · intro j used c column settled
    have other : j ≠ i := fun same => by
      subst same
      exact Bool.noConfusion ((Function.update_self ..).symm.trans used)
    refine inv.written j ((Function.update_of_ne other ..).symm.trans used) c column ?_
    intro left others now
    exact absurd (held.symm.trans now) (by simp)

omit [DecidableEq ι] [DecidableEq γ] in
/-- A processor is told which rows are in use. -/
theorem RowsInvariant.tell (inv : RowsInvariant layout s) {cpu : κ} {cpus : List κ}
    (untold : cpu ∈ cpus) (inside : cpus ⊆ layout.cpus) {holder : RowHolder ι κ γ}
    (held : (∃ i, s.holder = some (.filling i [] cpus) ∧
        holder = .filling i [] (cpus.erase cpu)) ∨
      s.holder = some (.freeing [] cpus) ∧ holder = .freeing [] (cpus.erase cpu)) :
    RowsInvariant layout { s with
      armed := Function.update s.armed cpu s.used
      holder := some holder } := by
  have fewer : cpus.erase cpu ⊆ layout.cpus := fun _ member =>
    inside (List.mem_of_mem_erase member)
  constructor
  · intro other j armed
    by_cases same : other = cpu
    · subst same
      exact .inl ((congrFun (Function.update_self ..) j).symm.trans armed)
    · have before : s.armed other j = true :=
        (congrFun (Function.update_of_ne same ..) j).symm.trans armed
      rcases inv.told other j before with used | ⟨rows, others, freeing, member⟩
      · exact .inl used
      · rcases held with ⟨i, filling, -⟩ | ⟨freed, rfl⟩
        · exact absurd (filling.symm.trans freeing) (by simp)
        · obtain ⟨-, rfl⟩ := RowHolder.freeing.inj (Option.some.inj (freed.symm.trans freeing))
          exact .inr ⟨[], _, rfl, (List.mem_erase_of_ne same).mpr member⟩
  · intro other j armed
    by_cases same : other = cpu
    · exact same ▸ inside untold
    · exact inv.known other j ((congrFun (Function.update_of_ne same ..) j).symm.trans armed)
  · intro j rows others now
    rcases held with ⟨i, -, rfl⟩ | ⟨-, rfl⟩
    · exact absurd now (by simp)
    · exact absurd now (by simp)
  · intro j left others now
    rcases held with ⟨i, -, rfl⟩ | ⟨-, rfl⟩
    · obtain ⟨-, -, rfl⟩ := RowHolder.filling.inj (Option.some.inj now)
      exact fewer
    · exact absurd now (by simp)
  · intro rows others now
    rcases held with ⟨i, -, rfl⟩ | ⟨-, rfl⟩
    · exact absurd now (by simp)
    · obtain ⟨-, rfl⟩ := RowHolder.freeing.inj (Option.some.inj now)
      exact fewer
  · intro j c left others now
    rcases held with ⟨i, -, rfl⟩ | ⟨-, rfl⟩
    · exact absurd now (by simp)
    · exact absurd now (by simp)
  · intro j used c column settled
    refine inv.written j used c column fun left others now => ?_
    rcases held with ⟨i, filling, -⟩ | ⟨freed, -⟩
    · obtain ⟨-, rfl, -⟩ := RowHolder.filling.inj (Option.some.inj (filling.symm.trans now))
      exact List.not_mem_nil
    · exact absurd (freed.symm.trans now) (by simp)

/-- Every step of the rows keeps the invariant. -/
theorem RowsInvariant.step (inv : RowsInvariant layout s)
    (stepped : rowStep layout s event = some t) : RowsInvariant layout t := by
  cases rowStep_move stepped with
  | fill i record unlocked unused => exact inv.fill record unlocked unused
  | free rows unlocked =>
    have idle {j : ι} {left : List γ} {cpus : List κ}
        (now : s.holder = some (.filling j left cpus)) : False :=
      absurd (unlocked.symm.trans now) (by simp)
    constructor
    · intro cpu j armed
      exact .inr ⟨rows, layout.cpus, rfl, inv.known cpu j armed⟩
    · exact inv.known
    · intro j later cpus now
      exact (RowHolder.freeing.inj (Option.some.inj now)).2.symm
    · intro j left cpus now
      exact absurd now (by simp)
    · intro later cpus now
      obtain ⟨-, rfl⟩ := RowHolder.freeing.inj (Option.some.inj now)
      exact List.Subset.refl _
    · intro j c left cpus now
      exact absurd now (by simp)
    · intro j used c column settled
      exact inv.written j used c column fun left cpus now => (idle now).elim
  | cell i c left cpus held => exact inv.cell held
  | unuse i rows cpus held => exact inv.unuse held
  | arm cpu i cpus held untold =>
    exact inv.tell untold (inv.filling i _ _ held) (.inl ⟨i, held, rfl⟩)
  | disarm cpu cpus held untold =>
    exact inv.tell untold (inv.freeing _ _ held) (.inr ⟨held, rfl⟩)
  | unlock done =>
    constructor
    · intro cpu j armed
      refine .inl ((inv.told cpu j armed).resolve_right ?_)
      rintro ⟨rows, cpus, freeing, member⟩
      rcases done with ⟨i, held⟩ | held
      · exact absurd (held.symm.trans freeing) (by simp)
      · obtain ⟨-, rfl⟩ := RowHolder.freeing.inj (Option.some.inj (held.symm.trans freeing))
        exact absurd member List.not_mem_nil
    · exact inv.known
    · intro j later cpus now
      exact absurd now (by simp)
    · intro j left cpus now
      exact absurd now (by simp)
    · intro later cpus now
      exact absurd now (by simp)
    · intro j c left cpus now
      exact absurd now (by simp)
    · intro j used c column settled
      refine inv.written j used c column fun left cpus now => ?_
      rcases done with ⟨i, held⟩ | held
      · obtain ⟨-, rfl, -⟩ := RowHolder.filling.inj (Option.some.inj (held.symm.trans now))
        exact List.not_mem_nil
      · exact absurd (held.symm.trans now) (by simp)
  | trap | ask | read =>
    exact ⟨inv.told, inv.known, inv.whole, inv.filling, inv.freeing, inv.apart, inv.written⟩

/-- No row is in use, and nobody has been told of any. -/
structure Rows.Empty (s : Rows ι κ δ ν) : Prop where
  used : ∀ i, s.used i = false
  armed : ∀ cpu i, s.armed cpu i = false
  holder : s.holder = none

omit [DecidableEq ι] [DecidableEq κ] [DecidableEq γ] in
/-- The invariant holds of rows that are not in use. -/
theorem Rows.Empty.invariant (empty : s.Empty) : RowsInvariant layout s := by
  have unarmed {cpu : κ} {i : ι} (armed : s.armed cpu i = true) : False :=
    Bool.noConfusion ((empty.armed cpu i).symm.trans armed)
  have unlocked {holder : RowHolder ι κ γ} (held : s.holder = some holder) : False :=
    absurd (empty.holder.symm.trans held) (by simp)
  exact ⟨fun _ _ armed => (unarmed armed).elim, fun _ _ armed => (unarmed armed).elim,
    fun _ _ _ held => (unlocked held).elim, fun _ _ _ held => (unlocked held).elim,
    fun _ _ held => (unlocked held).elim, fun _ _ _ _ held => (unlocked held).elim,
    fun i used => Bool.noConfusion ((empty.used i).symm.trans used)⟩

/-! ## Reading a row -/

/-- A row that stays in use and whose cells have all been written. -/
structure Steady (layout : RowLayout ι κ γ δ) (i : ι) (record : (c : γ) → ν c) (s : Rows ι κ δ ν) :
    Prop where
  used : s.used i = true
  cells : ∀ c ∈ layout.columns, s.cell i c = record c
  apart : ∀ c left cpus, s.holder ≠ some (.filling i (c :: left) cpus)

omit [DecidableEq ι] [DecidableEq κ] [DecidableEq γ] in
/-- A row that a processor has been told of is not being written. -/
theorem RowsInvariant.settled (inv : RowsInvariant layout s) {cpu : κ} {i : ι}
    (armed : s.armed cpu i = true) (c : γ) (left : List γ) (cpus : List κ) :
    s.holder ≠ some (.filling i (c :: left) cpus) := fun held =>
  Bool.noConfusion ((inv.apart i c left cpus held cpu).symm.trans armed)

omit [DecidableEq ι] [DecidableEq κ] [DecidableEq γ] in
/-- A row in use that is not being written holds what it was taken for. -/
theorem RowsInvariant.steady (inv : RowsInvariant layout s) {i : ι} (used : s.used i = true)
    (settled : ∀ c left cpus, s.holder ≠ some (.filling i (c :: left) cpus)) :
    Steady layout i (s.record i) s := by
  refine ⟨used, fun c column => inv.written i used c column fun left cpus held inside => ?_,
    settled⟩
  obtain ⟨d, rest, rfl⟩ := List.exists_cons_of_ne_nil (List.ne_nil_of_mem inside)
  exact settled d rest cpus held

/-- A row that is steady stays so until it is freed. -/
theorem Steady.step {i : ι} {record : (c : γ) → ν c} (steady : Steady layout i record s)
    (keeps : ¬FreesRow i s event) (stepped : rowStep layout s event = some t) :
    Steady layout i record t := by
  cases rowStep_move stepped with
  | fill j other unlocked unused =>
    have apart : i ≠ j := fun same => by
      subst same
      exact Bool.noConfusion (unused.symm.trans steady.used)
    refine ⟨(Function.update_of_ne apart ..).trans steady.used, steady.cells, ?_⟩
    intro c left cpus now
    exact apart (RowHolder.filling.inj (Option.some.inj now)).1.symm
  | free rows unlocked => exact ⟨steady.used, steady.cells, fun _ _ _ now => absurd now (by simp)⟩
  | cell j c left cpus held =>
    have apart : i ≠ j := fun same => by
      subst same
      exact steady.apart c left cpus held
    refine ⟨steady.used, fun d column => ?_, fun d later others now => ?_⟩
    · show Function.update s.cell j _ i d = record d
      rw [Function.update_of_ne apart]
      exact steady.cells d column
    · exact apart (RowHolder.filling.inj (Option.some.inj now)).1.symm
  | unuse j rows cpus held =>
    have apart : i ≠ j := fun same => keeps ⟨rows, cpus, same ▸ held⟩
    exact ⟨(Function.update_of_ne apart ..).trans steady.used, steady.cells,
      fun _ _ _ now => absurd now (by simp)⟩
  | arm cpu j cpus held untold =>
    refine ⟨steady.used, steady.cells, fun c left others now => ?_⟩
    have nil := (RowHolder.filling.inj (Option.some.inj now)).2.1
    exact absurd nil (by simp)
  | disarm cpu cpus held untold =>
    exact ⟨steady.used, steady.cells, fun _ _ _ now => absurd now (by simp)⟩
  | unlock done => exact ⟨steady.used, steady.cells, fun _ _ _ now => absurd now (by simp)⟩
  | trap | ask | read => exact ⟨steady.used, steady.cells, steady.apart⟩

/-- What a trap has read so far of a record. -/
def ReadsRecord (layout : RowLayout ι κ γ δ) (i : ι) (record : (c : γ) → ν c) (k : Nat)
    (s : Rows ι κ δ ν) : Prop :=
  ∃ n ≤ layout.printed.length,
    s.readers[k]? = some (.reading i ((layout.printed.take n).map fun c => ⟨c, record c⟩))

omit [DecidableEq ι] [DecidableEq κ] [DecidableEq γ] in
/-- The next cell of a steady row is the next one of its record. -/
theorem nextCells_eq {i : ι} {record : (c : γ) → ν c} (steady : Steady layout i record s) {n : Nat}
    (most : n ≤ layout.printed.length) :
    ∃ m ≤ layout.printed.length,
      nextCells layout s i ((layout.printed.take n).map fun c => ⟨c, record c⟩) =
        (layout.printed.take m).map fun c => ⟨c, record c⟩ := by
  have size : ((layout.printed.take n).map fun c => (⟨c, record c⟩ : Sigma ν)).length = n := by
    rw [List.length_map, List.length_take, Nat.min_eq_left most]
  unfold nextCells
  rw [size]
  by_cases done : n < layout.printed.length
  · have here : layout.printed[n]? = some layout.printed[n] := List.getElem?_eq_getElem done
    have column := layout.covers _ (List.getElem_mem done)
    refine ⟨n + 1, done, ?_⟩
    rw [here]
    show _ ++ [(⟨layout.printed[n], s.cell i layout.printed[n]⟩ : Sigma ν)] = _
    rw [steady.cells _ column, List.take_add_one, here, List.map_append]
    rfl
  · refine ⟨n, most, ?_⟩
    rw [List.getElem?_eq_none (Nat.not_lt.mp done)]

/-- Whatever step is taken, the trap goes on with the same record. -/
theorem ReadsRecord.step {i : ι} {record : (c : γ) → ν c} {k : Nat}
    (reads : ReadsRecord layout i record k s) (steady : Steady layout i record s)
    (stepped : rowStep layout s event = some t) : ReadsRecord layout i record k t := by
  obtain ⟨n, most, mine⟩ := reads
  cases rowStep_move stepped with
  | trap cpu rows armed =>
    have inside := (List.getElem?_eq_some_iff.mp mine).1
    exact ⟨n, most, (List.getElem?_append_left inside).trans mine⟩
  | ask j cpu here =>
    have other : j ≠ k := by
      rintro rfl
      exact absurd (here.symm.trans mine) (by simp)
    exact ⟨n, most, (List.getElem?_set_ne other).trans mine⟩
  | read j row got here =>
    by_cases same : j = k
    · subst same
      obtain ⟨rfl, rfl⟩ := RowReader.reading.inj (Option.some.inj (here.symm.trans mine))
      obtain ⟨m, fits, next⟩ := nextCells_eq steady most
      have inside := (List.getElem?_eq_some_iff.mp mine).1
      refine ⟨m, fits, ?_⟩
      show (s.readers.set j _)[j]? = _
      rw [List.getElem?_set_self inside, next]
    · exact ⟨n, most, (List.getElem?_set_ne same).trans mine⟩
  | fill | free | cell | unuse | arm | disarm | unlock => exact ⟨n, most, mine⟩

/-- What a trap reads of the row that it asks for is what the row was taken for, if the row is in
use then and not being written, and as long as it is not freed. -/
theorem asked_reads_record {events : List (RowEvent ι κ ν)} {u : Rows ι κ δ ν} {k : Nat} {cpu : κ}
    {i : ι} (inv : RowsInvariant layout s) (entered : s.readers[k]? = some (.entered cpu))
    (asked : rowStep layout s (.ask k) = some t) (answer : layout.query (s.status cpu) = some i)
    (used : s.used i = true)
    (settled : ∀ c left cpus, s.holder ≠ some (.filling i (c :: left) cpus))
    (keeps : Admits (rowStep layout) (fun s event => ¬FreesRow i s event) t events)
    (ran : run (rowStep layout) t events = some u) :
    ReadsRecord layout i (s.record i) k u := by
  cases rowStep_move asked with
  | ask _ other here =>
    obtain rfl : cpu = other := RowReader.entered.inj (Option.some.inj (entered.symm.trans here))
    have steady := inv.steady used settled
    have start : ReadsRecord layout i (s.record i) k
        { s with readers := s.readers.set k (.asked layout s cpu) } := by
      refine ⟨0, Nat.zero_le _, ?_⟩
      have inside := (List.getElem?_eq_some_iff.mp entered).1
      show (s.readers.set k _)[k]? = _
      rw [List.getElem?_set_self inside, RowReader.asked, answer]
      rfl
    refine (@run_admitted _ _ (rowStep layout) (fun s event => ¬FreesRow i s event)
      (fun v => Steady layout i (s.record i) v ∧ ReadsRecord layout i (s.record i) k v)
      ?_ events { s with readers := s.readers.set k (.asked layout s cpu) } u
      ⟨⟨steady.used, steady.cells, steady.apart⟩, start⟩ keeps ran).2
    intro v event w holds keep stepped
    exact ⟨holds.1.step keep stepped, holds.2.step holds.1 stepped⟩

/-! ## A section that nobody else moves in -/

/-- The writes of the cells of a row lead to its whole record. -/
theorem run_cells (layout : RowLayout ι κ γ δ) (i : ι) (left : List γ) (cpus : List κ)
    (s : Rows ι κ δ ν) (held : s.holder = some (.filling i left cpus)) :
    ∃ t, run (rowStep layout) s (List.replicate left.length .write) = some t ∧
      t = { s with cell := t.cell, holder := some (.filling i [] cpus) } ∧
      (∀ c ∈ left, t.cell i c = s.record i c) ∧ (∀ c, c ∉ left → t.cell i c = s.cell i c) ∧
      ∀ j, j ≠ i → t.cell j = s.cell j := by
  induction left generalizing s with
  | nil =>
    refine ⟨s, rfl, ?_, fun c member => absurd member List.not_mem_nil, fun _ _ => rfl,
      fun _ _ => rfl⟩
    rw [← held]
  | cons c left ih =>
    let next : Rows ι κ δ ν := { s with
      cell := Function.update s.cell i (Function.update (s.cell i) c (s.record i c))
      holder := some (.filling i left cpus) }
    have stepped : rowStep layout s .write = some next := by
      simp only [rowStep, held]
      rfl
    obtain ⟨t, ran, same, now, others, rows⟩ := ih next rfl
    have first : next.cell i = Function.update (s.cell i) c (s.record i c) :=
      Function.update_self ..
    refine ⟨t, run_cons_eq_some.mpr ⟨next, stepped, ran⟩, same, fun d member => ?_,
      fun d outside => ?_, fun j other => ?_⟩
    · by_cases later : d ∈ left
      · exact now d later
      · obtain rfl := (List.mem_cons.mp member).resolve_right later
        rw [others d later, first, Function.update_self]
    · have apart : d ≠ c := fun same => outside (same ▸ List.mem_cons_self)
      rw [others d fun later => outside (List.mem_cons_of_mem c later), first,
        Function.update_of_ne apart]
    · rw [rows j other]
      exact Function.update_of_ne other ..

/-- Every processor is told of a row, one after the other. -/
theorem run_tells (layout : RowLayout ι κ γ δ) (cpus : List κ) (s : Rows ι κ δ ν)
    (held : (∃ i, s.holder = some (.filling i [] cpus)) ∨ s.holder = some (.freeing [] cpus)) :
    ∃ t, run (rowStep layout) s (cpus.map .tell ++ [.unlock]) = some t ∧
      t = { s with armed := t.armed, holder := none } ∧
      (∀ cpu ∈ cpus, t.armed cpu = s.used) ∧ ∀ cpu, cpu ∉ cpus → t.armed cpu = s.armed cpu := by
  induction cpus generalizing s with
  | nil =>
    have stepped : rowStep layout s .unlock = some { s with holder := none } := by
      rcases held with ⟨i, held⟩ | held
      · simp only [rowStep, held]
      · simp only [rowStep, held]
    exact ⟨_, run_cons_eq_some.mpr ⟨_, stepped, rfl⟩, rfl,
      fun _ member => absurd member List.not_mem_nil, fun _ _ => rfl⟩
  | cons cpu cpus ih =>
    have moved : ∃ next : Rows ι κ δ ν, rowStep layout s (.tell cpu) = some next ∧
        next = { s with armed := Function.update s.armed cpu s.used, holder := next.holder } ∧
        ((∃ i, next.holder = some (.filling i [] cpus)) ∨
          next.holder = some (.freeing [] cpus)) := by
      rcases held with ⟨i, held⟩ | held
      · exact ⟨{ s with
          armed := Function.update s.armed cpu s.used
          holder := some (.filling i [] cpus) }, by simp [rowStep, held], rfl, .inl ⟨i, rfl⟩⟩
      · exact ⟨{ s with
          armed := Function.update s.armed cpu s.used
          holder := some (.freeing [] cpus) }, by simp [rowStep, held], rfl, .inr rfl⟩
    obtain ⟨next, stepped, form, holds⟩ := moved
    obtain ⟨t, ran, same, told, others⟩ := ih next holds
    have used : next.used = s.used := by rw [form]
    have armed : next.armed = Function.update s.armed cpu s.used := by rw [form]
    refine ⟨t, run_cons_eq_some.mpr ⟨next, stepped, ran⟩, ?_, fun other member => ?_,
      fun other outside => ?_⟩
    · rw [same, form]
    · by_cases later : other ∈ cpus
      · rw [told other later, used]
      · obtain rfl := (List.mem_cons.mp member).resolve_right later
        rw [others other later, armed, Function.update_self]
    · have apart : other ≠ cpu := fun same => outside (same ▸ List.mem_cons_self)
      rw [others other fun later => outside (List.mem_cons_of_mem cpu later), armed,
        Function.update_of_ne apart]

/-- The lock is taken for a free row and given back, and nobody else moves: the row is in use and
holds its record, the others are as they were, and every processor has been told. -/
theorem fill_alone (layout : RowLayout ι κ γ δ) {s : Rows ι κ δ ν} {i : ι} (record : (c : γ) → ν c)
    (unlocked : s.holder = none) (unused : s.used i = false) :
    ∃ t, run (rowStep layout) s (.fill i record ::
        (List.replicate layout.columns.length .write ++ (layout.cpus.map .tell ++ [.unlock]))) =
          some t ∧
      t.used = Function.update s.used i true ∧ (∀ c ∈ layout.columns, t.cell i c = record c) ∧
      (∀ j, j ≠ i → t.cell j = s.cell j) ∧ (∀ cpu ∈ layout.cpus, t.armed cpu = t.used) ∧
      t.holder = none ∧ t.record i = record ∧ t.readers = s.readers ∧ t.status = s.status := by
  let taken : Rows ι κ δ ν := { s with
    used := Function.update s.used i true
    record := Function.update s.record i record
    holder := some (.filling i layout.columns layout.cpus) }
  have stepped : rowStep layout s (.fill i record) = some taken :=
    if_pos ⟨Option.isNone_iff_eq_none.mpr unlocked, unused⟩
  obtain ⟨filled, wrote, form, cells, -, rows⟩ := run_cells layout i layout.columns layout.cpus
    taken rfl
  obtain ⟨t, told, same, armed, -⟩ := run_tells layout layout.cpus filled
    (.inl ⟨i, by rw [form]⟩)
  have before : filled.used = taken.used := by rw [form]
  have used : t.used = taken.used := by rw [same, before]
  have cell : t.cell = filled.cell := by rw [same]
  have new : taken.record i = record := Function.update_self ..
  refine ⟨t, run_cons_eq_some.mpr ⟨taken, stepped, ?_⟩, used, fun c column => ?_,
    fun j other => ?_, fun cpu member => ?_, by rw [same], ?_, by rw [same, form],
    by rw [same, form]⟩
  · rw [run_append, wrote]
    exact told
  · rw [cell, cells c column, new]
  · rw [cell, rows j other]
  · rw [armed cpu member, used, before]
  · rw [same, form]
    exact new

/-- A trap reads cells while another row is being written, and no row is freed. -/
theorem run_read_beside (layout : RowLayout ι κ γ δ) {i j : ι} {k n : Nat} {got : List (Sigma ν)}
    {left : List γ} {cpus : List κ} (s : Rows ι κ δ ν)
    (held : s.holder = some (.filling j left cpus)) (writes : n ≤ left.length)
    (reader : s.readers[k]? = some (.reading i got))
    (reads : got.length + n ≤ layout.printed.length) :
    ∃ t got', run (rowStep layout) s (List.replicate n [.write, .read k]).flatten = some t ∧
      Admits (rowStep layout) (fun s event => ¬FreesRow i s event) s
        (List.replicate n [.write, .read k]).flatten ∧
      t.readers[k]? = some (.reading i got') ∧ got'.length = got.length + n := by
  induction n generalizing s left got with
  | zero => exact ⟨s, got, rfl, trivial, reader, rfl⟩
  | succ n ih =>
    cases left with
    | nil => exact absurd writes (Nat.not_succ_le_zero n)
    | cons c left =>
      let wrote : Rows ι κ δ ν := { s with
        cell := Function.update s.cell j (Function.update (s.cell j) c (s.record j c))
        holder := some (.filling j left cpus) }
      let read : Rows ι κ δ ν := { wrote with
        readers := wrote.readers.set k (.reading i (nextCells layout wrote i got)) }
      have first : rowStep layout s .write = some wrote := by
        simp only [rowStep, held]
        rfl
      have second : rowStep layout wrote (.read k) = some read := by
        have here : wrote.readers[k]? = some (.reading i got) := reader
        simp only [rowStep, here]
        rfl
      have inside := (List.getElem?_eq_some_iff.mp reader).1
      have more : (nextCells layout wrote i got).length = got.length + 1 := by
        have here : layout.printed[got.length]? = some layout.printed[got.length] :=
          List.getElem?_eq_getElem (by omega)
        rw [nextCells, here, List.length_append, List.length_singleton]
      obtain ⟨t, got', ran, keeps, last, size⟩ := ih read rfl (Nat.le_of_succ_le_succ writes)
        (List.getElem?_set_self inside) (by omega)
      have keep : ¬FreesRow i s (.write : RowEvent ι κ ν) := by
        rintro ⟨rows, cpus, freeing⟩
        exact absurd (held.symm.trans freeing) (by simp)
      refine ⟨t, got', ?_, ?_, last, by omega⟩
      · rw [List.replicate_succ, List.flatten_cons]
        exact run_cons_eq_some.mpr ⟨wrote, first, run_cons_eq_some.mpr ⟨read, second, ran⟩⟩
      · rw [List.replicate_succ, List.flatten_cons]
        exact admits_cons first keep (admits_cons second id keeps)

/-- The steps that free a row, with nobody else moving, take it out of use. -/
theorem free_alone (layout : RowLayout ι κ γ δ) {s : Rows ι κ δ ν} (i : ι)
    (unlocked : s.holder = none) :
    ∃ t, run (rowStep layout) s
        (.free [i] :: .write :: (layout.cpus.map .tell ++ [.unlock])) = some t ∧
      t.used = Function.update s.used i false ∧ t.cell = s.cell ∧
      (∀ cpu ∈ layout.cpus, t.armed cpu = t.used) ∧ t.holder = none := by
  let taken : Rows ι κ δ ν := { s with holder := some (.freeing [i] layout.cpus) }
  let freed : Rows ι κ δ ν := { s with
    used := Function.update s.used i false
    holder := some (.freeing [] layout.cpus) }
  have first : rowStep layout s (.free [i]) = some taken :=
    if_pos (Option.isNone_iff_eq_none.mpr unlocked)
  have second : rowStep layout taken .write = some freed := rfl
  obtain ⟨t, told, same, armed, -⟩ := run_tells layout layout.cpus freed (.inr rfl)
  have used : t.used = freed.used := by rw [same]
  refine ⟨t, run_cons_eq_some.mpr ⟨taken, first, run_cons_eq_some.mpr ⟨freed, second, told⟩⟩, used,
    by rw [same], fun cpu member => ?_, by rw [same]⟩
  rw [armed cpu member, used]

end Machine
