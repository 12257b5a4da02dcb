import Drddr.Machine.Ere

/-!
# Searching

A search that can be run: from a position it computes all positions at which an expression may
end.
-/

namespace Machine.Ere

/-- The characters before a position and those after it. -/
abbrev Position := List Char × List Char

/-- The positions behind any number of pieces that take a character at least. -/
def closure (piece : Position → List Position) : Nat → Position → List Position
  | 0, p => [p]
  | fuel + 1, p =>
    p :: ((piece p).filter (·.2.length < p.2.length)).flatMap (closure piece fuel)

/-- The ends of the matches that start at a position. -/
def ends : Ere → Position → List Position
  | char c, (before, after) =>
    match after with
    | [] => []
    | d :: after => if d = c then [(before ++ [d], after)] else []
  | any, (before, after) =>
    match after with
    | [] => []
    | d :: after => [(before ++ [d], after)]
  | bol, p => if p.1 = [] then [p] else []
  | eol, p => if p.2 = [] then [p] else []
  | cat e f, p => (e.ends p).flatMap f.ends
  | alt e f, p => e.ends p ++ f.ends p
  | star e, p => closure e.ends p.2.length p
  | plus e, p => (e.ends p).flatMap fun q => closure e.ends q.2.length q
  | opt e, p => p :: e.ends p

/-- The expression matches somewhere in a string, as it is computed. -/
def search (e : Ere) (s : List Char) : Bool :=
  (List.range (s.length + 1)).any fun i => !(e.ends (s.take i, s.drop i)).isEmpty

/-- The part between two positions is matched. -/
def Spans (piece : List Char → List Char → List Char → Prop) (p q : Position) : Prop :=
  ∃ text, p.2 = text ++ q.2 ∧ q.1 = p.1 ++ text ∧ piece p.1 text q.2

section

variable {piece : List Char → List Char → List Char → Prop} {next : Position → List Position}
  (exact : ∀ p q, q ∈ next p ↔ Spans piece p q)

include exact

/-- Every position that is computed ends a sequence of pieces. -/
theorem spans_of_mem_closure {fuel : Nat} {p q : Position} (reached : q ∈ closure next fuel p) :
    Spans (Star piece) p q := by
  induction fuel generalizing p with
  | zero =>
    obtain rfl := List.mem_singleton.mp reached
    exact ⟨[], rfl, (List.append_nil _).symm, .nil⟩
  | succ fuel ih =>
    rcases List.mem_cons.mp reached with rfl | reached
    · exact ⟨[], rfl, (List.append_nil _).symm, .nil⟩
    · obtain ⟨middle, first, reached⟩ := List.mem_flatMap.mp reached
      obtain ⟨text, front, before, matched⟩ := (exact p middle).mp (List.mem_of_mem_filter first)
      obtain ⟨rest, front', before', matched'⟩ := ih reached
      refine ⟨text ++ rest, ?_, ?_, .cons ?_ ?_⟩
      · rw [front, front', List.append_assoc]
      · rw [before', before, List.append_assoc]
      · rwa [← front']
      · rwa [← before]

/-- Every sequence of pieces is computed; those that take no character add nothing. -/
theorem mem_closure_of_star {before text after : List Char} (matched : Star piece before text after)
    {fuel : Nat} (enough : (text ++ after).length ≤ fuel) :
    (before ++ text, after) ∈ closure next fuel (before, text ++ after) := by
  induction matched generalizing fuel with
  | nil =>
    rw [List.append_nil, List.nil_append]
    cases fuel <;> exact List.mem_cons_self
  | @cons before text rest after first _ ih =>
    cases text with
    | nil => simpa using ih enough
    | cons c text =>
      cases fuel with
      | zero => simp at enough
      | succ fuel =>
        have shorter : (rest ++ after).length < (c :: text ++ rest ++ after).length := by
          simp only [List.length_append, List.length_cons]
          omega
        refine List.mem_cons_of_mem _ (List.mem_flatMap.mpr ⟨(before ++ c :: text, rest ++ after),
          List.mem_filter.mpr ⟨(exact _ _).mpr ⟨c :: text, ?_, rfl, first⟩, ?_⟩, ?_⟩)
        · exact List.append_assoc _ _ _
        · exact decide_eq_true shorter
        · rw [← List.append_assoc]
          exact ih (by omega)

/-- The closure computes the spans of the sequences of pieces. -/
theorem mem_closure_iff (p q : Position) :
    q ∈ closure next p.2.length p ↔ Spans (Star piece) p q := by
  refine ⟨spans_of_mem_closure exact, ?_⟩
  obtain ⟨before, after⟩ := p
  obtain ⟨before', after'⟩ := q
  rintro ⟨text, front, back, matched⟩
  simp only at front back matched
  subst front back
  exact mem_closure_of_star exact matched (Nat.le_refl _)

end

/-- The spans of one expression after the other are those of both with a place between them. -/
theorem spans_seq {left right : List Char → List Char → List Char → Prop} (p q : Position) :
    (∃ middle, Spans left p middle ∧ Spans right middle q) ↔
      Spans (fun before text after => ∃ l r, text = l ++ r ∧ left before l (r ++ after) ∧
        right (before ++ l) r after) p q := by
  obtain ⟨before, rest⟩ := p
  obtain ⟨before', after⟩ := q
  constructor
  · rintro ⟨⟨middle, later⟩, ⟨l, front, back, first⟩, r, front', back', second⟩
    simp only at front back first front' back' second
    subst front back front' back'
    exact ⟨l ++ r, (List.append_assoc _ _ _).symm, List.append_assoc _ _ _, l, r, rfl, first,
      second⟩
  · rintro ⟨text, front, back, l, r, rfl, first, second⟩
    simp only at front back first second
    subst front back
    exact ⟨(before ++ l, r ++ after), ⟨l, List.append_assoc _ _ _, rfl, first⟩,
      r, rfl, (List.append_assoc _ _ _).symm, second⟩

/-- The spans of two relations together are those of either. -/
theorem spans_or {left right : List Char → List Char → List Char → Prop} (p q : Position) :
    Spans left p q ∨ Spans right p q ↔
      Spans (fun before text after => left before text after ∨ right before text after) p q := by
  constructor
  · rintro (⟨text, front, back, matched⟩ | ⟨text, front, back, matched⟩)
    · exact ⟨text, front, back, .inl matched⟩
    · exact ⟨text, front, back, .inr matched⟩
  · rintro ⟨text, front, back, matched | matched⟩
    · exact .inl ⟨text, front, back, matched⟩
    · exact .inr ⟨text, front, back, matched⟩

/-- The spans of no character stay at a position, where that allows it. -/
theorem spans_nil (allowed : List Char → List Char → Prop) (p q : Position) :
    q = p ∧ allowed p.1 p.2 ↔
      Spans (fun before text after => text = [] ∧ allowed before after) p q := by
  constructor
  · rintro ⟨rfl, here⟩
    exact ⟨[], rfl, (List.append_nil _).symm, rfl, here⟩
  · rintro ⟨_, front, back, rfl, here⟩
    rw [List.nil_append] at front
    rw [List.append_nil] at back
    exact ⟨Prod.ext back front.symm, front ▸ here⟩

/-- The spans of a character are those over one that agrees. -/
theorem spans_char (allowed : Char → Prop) (p q : Position) :
    (∃ c after, p.2 = c :: after ∧ allowed c ∧ q = (p.1 ++ [c], after)) ↔
      Spans (fun _ text _ => ∃ c, text = [c] ∧ allowed c) p q := by
  constructor
  · rintro ⟨c, after, front, here, rfl⟩
    exact ⟨[c], front, rfl, c, rfl, here⟩
  · rintro ⟨_, front, back, c, rfl, here⟩
    exact ⟨c, q.2, front, here, Prod.ext back rfl⟩

/-- What is computed is what is matched. -/
theorem mem_ends_iff (e : Ere) (p q : Position) : q ∈ e.ends p ↔ Spans e.Matches p q := by
  induction e generalizing p q with
  | char c =>
    have meaning : Spans (char c).Matches p q ↔
        Spans (fun _ text _ => ∃ d, text = [d] ∧ d = c) p q := by simp [Spans, Matches]
    rw [meaning, ← spans_char]
    obtain ⟨before, _ | ⟨d, rest⟩⟩ := p
    · simp [ends]
    · simp only [ends]
      split <;> simp_all
  | any =>
    have meaning : Spans any.Matches p q ↔
        Spans (fun _ text _ => ∃ d, text = [d] ∧ True) p q := by simp [Spans, Matches]
    rw [meaning, ← spans_char]
    obtain ⟨before, _ | ⟨d, rest⟩⟩ := p
    · simp [ends]
    · simp [ends]
  | bol =>
    have meaning : Spans bol.Matches p q ↔
        Spans (fun before text _ => text = [] ∧ before = []) p q := by
      simp [Spans, Matches, and_comm]
    rw [meaning, ← spans_nil fun before _ => before = [], ends]
    split <;> simp_all
  | eol =>
    have meaning : Spans eol.Matches p q ↔
        Spans (fun _ text after => text = [] ∧ after = []) p q := by simp [Spans, Matches]
    rw [meaning, ← spans_nil fun _ after => after = [], ends]
    split <;> simp_all
  | cat e f ihe ihf =>
    simp only [ends, List.mem_flatMap, ihe, ihf]
    exact spans_seq p q
  | alt e f ihe ihf =>
    simp only [ends, List.mem_append, ihe, ihf]
    exact spans_or p q
  | star e ih => exact mem_closure_iff ih p q
  | plus e ih =>
    simp only [ends, List.mem_flatMap, ih, mem_closure_iff ih]
    exact spans_seq p q
  | opt e ih =>
    have nothing : q = p ↔ Spans (fun _ text _ => text = []) p q := by
      simpa using spans_nil (fun _ _ => True) p q
    simp only [ends, List.mem_cons, ih, nothing]
    exact spans_or p q

/-- The search finds an expression just when it matches somewhere. -/
theorem search_iff (e : Ere) (s : List Char) : e.search s ↔ e.Found s := by
  simp only [search, List.any_eq_true, List.mem_range, Bool.not_eq_true',
    List.isEmpty_eq_false_iff_exists_mem]
  constructor
  · rintro ⟨i, inside, q, reached⟩
    obtain ⟨text, front, -, matched⟩ := (mem_ends_iff e _ q).mp reached
    refine ⟨s.take i, text, q.2, ?_, matched⟩
    rw [List.append_assoc, ← front, List.take_append_drop]
  · rintro ⟨before, text, after, rfl, matched⟩
    have inside : before.length < (before ++ text ++ after).length + 1 := by
      simp only [List.length_append]
      omega
    refine ⟨before.length, inside, (before ++ text, after), (mem_ends_iff e _ _).mpr ?_⟩
    rw [List.append_assoc, List.take_left, List.drop_left]
    exact ⟨text, rfl, rfl, matched⟩

/-- The search for the expression that a text denotes. -/
def grep (pattern s : List Char) : Bool := (read pattern).any (·.search s)

end Machine.Ere
