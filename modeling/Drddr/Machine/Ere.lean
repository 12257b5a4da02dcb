import Mathlib.Data.List.Basic
import Mathlib.Data.List.Forall2

/-!
# Extended regular expressions

The part of the extended regular expressions of POSIX that needs no brackets and no counts: what
they match, how their text is read, and a search that can be run. A text whose meaning POSIX leaves
undefined (an empty branch, a repetition of nothing, of an anchor or of a repetition, an escape of
an ordinary character) is not read.
-/

namespace Machine

/-- An extended regular expression. -/
inductive Ere where
  | char (c : Char)
  | any
  | bol
  | eol
  | cat (e f : Ere)
  | alt (e f : Ere)
  | star (e : Ere)
  | plus (e : Ere)
  | opt (e : Ere)
  deriving DecidableEq, Repr

namespace Ere

/-! ## Meaning -/

/-- A text matched piece after piece; a piece sees what stands before and after it. -/
inductive Star (piece : List Char → List Char → List Char → Prop) :
    List Char → List Char → List Char → Prop where
  | nil {before after} : Star piece before [] after
  | cons {before text rest after} : piece before text (rest ++ after) →
      Star piece (before ++ text) rest after → Star piece before (text ++ rest) after

/-- The expression matches the middle one of three consecutive parts of a string. -/
def Matches : Ere → List Char → List Char → List Char → Prop
  | char c, _, text, _ => text = [c]
  | any, _, text, _ => ∃ c, text = [c]
  | bol, before, text, _ => before = [] ∧ text = []
  | eol, _, text, after => text = [] ∧ after = []
  | cat e f, before, text, after => ∃ left right, text = left ++ right ∧
      e.Matches before left (right ++ after) ∧ f.Matches (before ++ left) right after
  | alt e f, before, text, after => e.Matches before text after ∨ f.Matches before text after
  | star e, before, text, after => Star e.Matches before text after
  | plus e, before, text, after => ∃ left right, text = left ++ right ∧
      e.Matches before left (right ++ after) ∧ Star e.Matches (before ++ left) right after
  | opt e, before, text, after => text = [] ∨ e.Matches before text after

/-- An expression matches somewhere in a string. -/
def Found (e : Ere) (s : List Char) : Prop :=
  ∃ before text after, s = before ++ text ++ after ∧ e.Matches before text after

/-- An expression matches the whole of a string. -/
def Whole (e : Ere) (s : List Char) : Prop := e.Matches [] s []

/-- Between the two anchors, to be found is to match the whole string. -/
theorem found_anchored (e : Ere) (s : List Char) : (cat bol (cat e eol)).Found s ↔ e.Whole s := by
  constructor
  · rintro ⟨before, text, after, rfl, start, rest, rfl, ⟨rfl, rfl⟩, middle, last, rfl, found, ends⟩
    obtain ⟨rfl, rfl⟩ := ends
    simpa [Whole] using found
  · intro whole
    exact ⟨[], s, [], by simp, [], s, by simp, ⟨rfl, rfl⟩, s, [], by simp,
      by simpa [Whole] using whole, rfl, rfl⟩

/-! ## Reading -/

/-- What has been read inside a parenthesis that is still open. -/
structure Frame where
  /-- The branches that are complete. -/
  branches : Option Ere
  /-- The pieces of the current branch, the last one first. -/
  pieces : List Ere
  /-- A repetition may follow. -/
  repeatable : Bool

namespace Frame

/-- The frame before its first piece. -/
def start : Frame := ⟨none, [], false⟩

/-- Add one more piece to the branch. -/
def push (f : Frame) (e : Ere) (repeatable : Bool) : Frame :=
  { f with pieces := e :: f.pieces, repeatable }

/-- Repeat the last piece. -/
def again (op : Ere → Ere) (f : Frame) : Option Frame :=
  match f.repeatable, f.pieces with
  | true, e :: pieces => some { f with pieces := op e :: pieces, repeatable := false }
  | _, _ => none

/-- All branches together, the current one included. -/
def close (f : Frame) : Option Ere :=
  match f.pieces with
  | [] => none
  | last :: pieces =>
    let branch := pieces.foldl (fun e piece => cat piece e) last
    some (f.branches.elim branch fun branches => alt branches branch)

/-- Complete the current branch. -/
def bar (f : Frame) : Option Frame := f.close.map fun e => ⟨some e, [], false⟩

/-- The characters that a backslash may precede. -/
def special : List Char := ['^', '.', '[', '$', '(', ')', '|', '*', '+', '?', '{', '\\']

/-- Read a character after a backslash. -/
def escape (f : Frame) (c : Char) : Option Frame :=
  if c ∈ special then some (f.push (char c) true) else none

/-- Read a character that concerns the innermost parenthesis only. -/
def edit (f : Frame) : Char → Option Frame
  | '|' => f.bar
  | '*' => f.again star
  | '+' => f.again plus
  | '?' => f.again opt
  | '[' => none
  | '{' => none
  | '^' => some (f.push bol false)
  | '$' => some (f.push eol false)
  | '.' => some (f.push any true)
  | c => some (f.push (char c) true)

end Frame

/-- The open parentheses, the innermost one first, and whether a backslash has just been read. -/
structure Reader where
  frames : List Frame
  escaped : Bool

namespace Reader

/-- The reader before the first character. -/
def start : Reader := ⟨[.start], false⟩

/-- Read one character. -/
def step (r : Reader) (c : Char) : Option Reader :=
  match r.frames with
  | [] => none
  | f :: below =>
    if r.escaped then (f.escape c).map fun f => ⟨f :: below, false⟩
    else if c = '\\' then some ⟨f :: below, true⟩
    else if c = '(' then some ⟨.start :: f :: below, false⟩
    else if c = ')' then
      match below with
      | [] => none
      | outer :: below => f.close.map fun e => ⟨outer.push e true :: below, false⟩
    else (f.edit c).map fun f => ⟨f :: below, false⟩

/-- Read the characters of a text. -/
def run (r : Reader) (text : List Char) : Option Reader := text.foldlM step r

/-- The expression that has been read, behind the last character. -/
def finish (r : Reader) : Option Ere :=
  match r.escaped, r.frames with
  | false, [f] => f.close
  | _, _ => none

end Reader

/-- The expression that a text denotes. -/
def read (text : List Char) : Option Ere := (Reader.start.run text).bind Reader.finish

/-! ## Reading a text inside another one -/

/-- One of some branches matches. -/
def Branches (branches : Option Ere) (before text after : List Char) : Prop :=
  ∃ e, branches = some e ∧ e.Matches before text after

/-- A completed branch matches as its expression does. -/
@[simp] theorem branches_some (e : Ere) (before text after : List Char) :
    Branches (some e) before text after ↔ e.Matches before text after := by
  simp [Branches]

/-- All branches together match when one of them does. -/
theorem matches_elim (branches : Option Ere) (branch : Ere) (before text after : List Char) :
    (branches.elim branch fun branches => alt branches branch).Matches before text after ↔
      Branches branches before text after ∨ branch.Matches before text after := by
  cases branches <;> simp [Branches, Matches]

/-- The frame is the other one, with further branches before its own. -/
structure Frame.After (first : Option Ere) (f f' : Frame) : Prop where
  pieces : f'.pieces = f.pieces
  repeatable : f'.repeatable = f.repeatable
  branches : ∀ before text after, Branches f'.branches before text after ↔
    Branches first before text after ∨ Branches f.branches before text after

namespace Frame.After

variable {first : Option Ere} {f f' : Frame}

/-- The same piece can be added to both frames. -/
theorem push (behind : After first f f') (e : Ere) (repeatable : Bool) :
    After first (f.push e repeatable) (f'.push e repeatable) :=
  ⟨congrArg (e :: ·) behind.pieces, rfl, behind.branches⟩

/-- The last piece can be repeated in both frames. -/
theorem again (behind : After first f f') {op : Ere → Ere} {g : Frame}
    (repeated : f.again op = some g) : ∃ g', f'.again op = some g' ∧ After first g g' := by
  obtain ⟨branches, pieces, repeatable⟩ := f
  obtain ⟨branches', pieces', repeatable'⟩ := f'
  obtain ⟨rfl, rfl, branches_iff⟩ := behind
  unfold Frame.again at repeated
  simp only at repeated
  split at repeated
  · rename_i e pieces
    obtain rfl := Option.some.inj repeated
    exact ⟨_, rfl, rfl, rfl, branches_iff⟩
  · exact absurd repeated (by simp)

/-- Both frames can be closed, and the second one matches what stands before it as well. -/
theorem close (behind : After first f f') {e : Ere} (closed : f.close = some e) :
    ∃ e', f'.close = some e' ∧ ∀ before text after, e'.Matches before text after ↔
      Branches first before text after ∨ e.Matches before text after := by
  obtain ⟨branches, pieces, repeatable⟩ := f
  obtain ⟨branches', pieces', repeatable'⟩ := f'
  obtain ⟨rfl, rfl, branches_iff⟩ := behind
  cases pieces' with
  | nil => exact absurd closed (by simp [Frame.close])
  | cons last pieces =>
    refine ⟨_, rfl, fun before text after => ?_⟩
    rw [← Option.some.inj closed, matches_elim, matches_elim, branches_iff, or_assoc]

/-- An escaped character does the same to both frames. -/
theorem escape (behind : After first f f') {c : Char} {g : Frame} (escaped : f.escape c = some g) :
    ∃ g', f'.escape c = some g' ∧ After first g g' := by
  rw [Frame.escape] at escaped
  split at escaped
  · rename_i special
    obtain rfl := Option.some.inj escaped
    exact ⟨_, if_pos special, behind.push _ _⟩
  · exact absurd escaped (by simp)

/-- A character that edits one frame edits the other in the same way. -/
theorem edit (behind : After first f f') {c : Char} {g : Frame} (edited : f.edit c = some g) :
    ∃ g', f'.edit c = some g' ∧ After first g g' := by
  unfold Frame.edit at edited ⊢
  split at edited
  · obtain ⟨e, closed, rfl⟩ := Option.map_eq_some_iff.mp edited
    obtain ⟨e', closed', matches_iff⟩ := behind.close closed
    refine ⟨⟨some e', [], false⟩, by simp only [Frame.bar, closed', Option.map_some], rfl, rfl, ?_⟩
    simpa only [branches_some] using matches_iff
  · exact behind.again edited
  · exact behind.again edited
  · exact behind.again edited
  · exact absurd edited (by simp)
  · exact absurd edited (by simp)
  · obtain rfl := Option.some.inj edited
    exact ⟨_, rfl, behind.push _ _⟩
  · obtain rfl := Option.some.inj edited
    exact ⟨_, rfl, behind.push _ _⟩
  · obtain rfl := Option.some.inj edited
    exact ⟨_, rfl, behind.push _ _⟩
  · obtain rfl := Option.some.inj edited
    exact ⟨_, rfl, behind.push _ _⟩

end Frame.After

/-- What a character does to the innermost frame and those around it. -/
inductive Reader.Move (f : Frame) (below : List Frame) : Bool → Char → Reader → Prop where
  | escape {c g} : f.escape c = some g → Move f below true c ⟨g :: below, false⟩
  | slash : Move f below false '\\' ⟨f :: below, true⟩
  | opening : Move f below false '(' ⟨.start :: f :: below, false⟩
  | closing {outer rest e} : below = outer :: rest → f.close = some e →
      Move f below false ')' ⟨outer.push e true :: rest, false⟩
  | edit {c g} : c ∉ ['\\', '(', ')'] → f.edit c = some g →
      Move f below false c ⟨g :: below, false⟩

/-- A character makes one of the moves of the reader, or the text is not read. -/
theorem Reader.step_iff {f : Frame} {below : List Frame} {escaped : Bool} {c : Char}
    {s : Reader} : Reader.step ⟨f :: below, escaped⟩ c = some s ↔ Move f below escaped c s := by
  constructor
  · intro read
    simp only [Reader.step] at read
    split at read
    · rename_i named
      obtain ⟨g, escape, rfl⟩ := Option.map_eq_some_iff.mp read
      exact named ▸ .escape escape
    · rename_i named
      rw [Bool.not_eq_true] at named
      subst named
      split at read
      · rename_i slash
        obtain rfl := Option.some.inj read
        exact slash ▸ .slash
      · rename_i slash
        split at read
        · rename_i opening
          obtain rfl := Option.some.inj read
          exact opening ▸ .opening
        · rename_i opening
          split at read
          · rename_i closing
            subst closing
            cases below with
            | nil => exact absurd read (by simp)
            | cons outer rest =>
              obtain ⟨e, closed, rfl⟩ := Option.map_eq_some_iff.mp read
              exact .closing rfl closed
          · rename_i closing
            obtain ⟨g, edited, rfl⟩ := Option.map_eq_some_iff.mp read
            exact .edit (by simp [slash, opening, closing]) edited
  · intro move
    cases move with
    | escape escape => simp [Reader.step, escape]
    | slash => rfl
    | opening => rfl
    | closing inside closed =>
      subst inside
      simp [Reader.step, closed]
    | edit other edited =>
      simp only [List.mem_cons, List.not_mem_nil, or_false, not_or] at other
      simp [Reader.step, other, edited]

/-- The reader has the same parentheses open inside a frame with further branches, and any number
of them around it. -/
structure Reader.Inside (first : Option Ere) (around : List Frame) (r r' : Reader) : Prop where
  escaped : r'.escaped = r.escaped
  frames : ∃ inner f f', r.frames = inner ++ [f] ∧ r'.frames = inner ++ f' :: around ∧
    Frame.After first f f'

namespace Reader.Inside

variable {first : Option Ere} {around : List Frame} {r r' s : Reader}

/-- A character is read inside the group as it is read alone. -/
theorem step (nested : Inside first around r r') {c : Char} (read : r.step c = some s) :
    ∃ s', r'.step c = some s' ∧ Inside first around s s' := by
  obtain ⟨frames, escaped⟩ := r
  obtain ⟨frames', escaped'⟩ := r'
  obtain ⟨rfl, inner, f, f', rfl, rfl, behind⟩ := nested
  simp only at read
  cases inner with
  | nil =>
    -- the outermost frame is the innermost one
    cases Reader.step_iff.mp read with
    | escape escaped =>
      obtain ⟨g', escaped', behind'⟩ := behind.escape escaped
      exact ⟨_, Reader.step_iff.mpr (.escape escaped'), rfl, [], _, _, rfl, rfl, behind'⟩
    | slash => exact ⟨_, Reader.step_iff.mpr .slash, rfl, [], _, _, rfl, rfl, behind⟩
    | opening => exact ⟨_, Reader.step_iff.mpr .opening, rfl, [_], _, _, rfl, rfl, behind⟩
    | closing inside closed => exact absurd inside (by simp)
    | edit other edited =>
      obtain ⟨g', edited', behind'⟩ := behind.edit edited
      exact ⟨_, Reader.step_iff.mpr (.edit other edited'), rfl, [], _, _, rfl, rfl, behind'⟩
  | cons g inner =>
    cases Reader.step_iff.mp read with
    | escape escaped =>
      exact ⟨_, Reader.step_iff.mpr (.escape escaped), rfl, _ :: inner, _, _, rfl, rfl, behind⟩
    | slash => exact ⟨_, Reader.step_iff.mpr .slash, rfl, g :: inner, _, _, rfl, rfl, behind⟩
    | opening =>
      exact ⟨_, Reader.step_iff.mpr .opening, rfl, .start :: g :: inner, _, _, rfl, rfl, behind⟩
    | closing inside closed =>
      cases inner with
      | nil =>
        -- the group is a piece of the outermost frame
        obtain ⟨rfl, rfl⟩ := List.cons.inj inside
        exact ⟨_, Reader.step_iff.mpr (.closing rfl closed), rfl, [], _, _, rfl, rfl,
          behind.push _ _⟩
      | cons outer inner =>
        obtain ⟨rfl, rfl⟩ := List.cons.inj inside
        exact ⟨_, Reader.step_iff.mpr (.closing rfl closed), rfl, _ :: inner, _, _, rfl, rfl,
          behind⟩
    | edit other edited =>
      exact ⟨_, Reader.step_iff.mpr (.edit other edited), rfl, _ :: inner, _, _, rfl, rfl, behind⟩

/-- A text that one reader takes is taken by the other inside the group as well. -/
theorem run (nested : Inside first around r r') {text : List Char}
    (read : r.run text = some s) : ∃ s', r'.run text = some s' ∧ Inside first around s s' := by
  induction text generalizing r r' with
  | nil =>
    obtain rfl := Option.some.inj read
    exact ⟨r', rfl, nested⟩
  | cons c text ih =>
    obtain ⟨next, first_read, rest_read⟩ := Option.bind_eq_some_iff.mp read
    obtain ⟨next', first_read', nested'⟩ := nested.step first_read
    obtain ⟨s', rest_read', nested''⟩ := ih nested' rest_read
    exact ⟨s', Option.bind_eq_some_iff.mpr ⟨next', first_read', rest_read'⟩, nested''⟩

end Reader.Inside

/-- Two texts are read one after the other. -/
theorem Reader.run_append (r : Reader) (text rest : List Char) :
    r.run (text ++ rest) = (r.run text).bind fun s => s.run rest :=
  List.foldlM_append

/-- A text that is read alone is read as one more branch, or several, of the frame that stands at
their start. -/
theorem run_inside {text : List Char} {e : Ere} (alone : read text = some e) (first : Option Ere)
    (around : List Frame) :
    ∃ g e', Reader.run ⟨⟨first, [], false⟩ :: around, false⟩ text = some ⟨g :: around, false⟩ ∧
      g.close = some e' ∧ ∀ before text after, e'.Matches before text after ↔
        Branches first before text after ∨ e.Matches before text after := by
  obtain ⟨s, ran, finished⟩ := Option.bind_eq_some_iff.mp alone
  have begins : Reader.Inside first around .start ⟨⟨first, [], false⟩ :: around, false⟩ :=
    ⟨rfl, [], _, _, rfl, rfl, rfl, rfl, by simp [Branches, Frame.start]⟩
  obtain ⟨⟨frames', escaped'⟩, ran', escaped, inner, f, f', frames, whole, behind⟩ :=
    begins.run ran
  obtain ⟨frames, escapedAlone⟩ := s
  simp only at frames whole escaped
  subst frames whole escaped
  rw [Reader.finish] at finished
  split at finished
  · rename_i final one
    obtain ⟨rfl, rfl⟩ : inner = [] ∧ f = _ := by
      cases inner with
      | nil => exact ⟨rfl, List.head_eq_of_cons_eq one⟩
      | cons g inner => exact absurd one (by simp)
    obtain ⟨e', closed, matches_iff⟩ := behind.close finished
    simp only at final
    subst final
    exact ⟨f', e', ran', closed, matches_iff⟩
  · exact absurd finished (by simp)

/-- A bar behind a branch completes it. -/
theorem run_branch {text : List Char} {e : Ere} (alone : read text = some e) (first : Option Ere)
    (around : List Frame) :
    ∃ e', Reader.run ⟨⟨first, [], false⟩ :: around, false⟩ (text ++ ['|']) =
        some ⟨⟨some e', [], false⟩ :: around, false⟩ ∧
      ∀ before text after, e'.Matches before text after ↔
        Branches first before text after ∨ e.Matches before text after := by
  obtain ⟨g, e', ran, closed, matches_iff⟩ := run_inside alone first around
  refine ⟨e', ?_, matches_iff⟩
  have bar : Reader.step ⟨g :: around, false⟩ '|' = some ⟨⟨some e', [], false⟩ :: around, false⟩ :=
    Reader.step_iff.mpr (.edit (by decide) (by simp [Frame.edit, Frame.bar, closed]))
  rw [Reader.run_append, ran]
  simp [Reader.run, bar]

/-- A text, read as an expression, matches the whole of a string. -/
def Covers (text s : List Char) : Prop := ∃ e, read text = some e ∧ e.Whole s

/-- An expression covers what it matches whole when it is read. -/
theorem covers_of_read {text s : List Char} {e : Ere} (alone : read text = some e) :
    Covers text s ↔ e.Whole s := by
  constructor
  · rintro ⟨e', same, whole⟩
    rwa [Option.some.inj (alone.symm.trans same)]
  · exact fun whole => ⟨e, alone, whole⟩

/-- Texts that are read alone, each with a bar after it. -/
theorem run_branches {texts : List (List Char)} (alone : ∀ text ∈ texts, (read text).isSome)
    (first : Option Ere) (around : List Frame) :
    ∃ all, Reader.run ⟨⟨first, [], false⟩ :: around, false⟩ (texts.flatMap (· ++ ['|'])) =
        some ⟨⟨all, [], false⟩ :: around, false⟩ ∧
      ∀ s, Branches all [] s [] ↔ Branches first [] s [] ∨ ∃ text ∈ texts, Covers text s := by
  induction texts generalizing first with
  | nil => exact ⟨first, rfl, by simp⟩
  | cons text texts ih =>
    obtain ⟨e, denoted⟩ := Option.isSome_iff_exists.mp (alone text List.mem_cons_self)
    obtain ⟨e', ran, matches_iff⟩ := run_branch denoted first around
    obtain ⟨all, ran', all_iff⟩ :=
      ih (fun text later => alone text (List.mem_cons_of_mem _ later)) (some e')
    refine ⟨all, ?_, fun s => ?_⟩
    · rw [List.flatMap_cons, Reader.run_append, ran]
      exact ran'
    · rw [all_iff, branches_some, matches_iff, List.exists_mem_cons_iff, covers_of_read denoted,
        Whole, or_assoc]

/-- The alternation of the texts, between the two anchors: it is found in the strings that one of
them matches whole. -/
theorem read_alternation {texts : List (List Char)} {last : List Char}
    (alone : ∀ text ∈ texts, (read text).isSome) (lastAlone : (read last).isSome) :
    ∃ e, read (['^', '('] ++ (texts.flatMap (· ++ ['|']) ++ (last ++ [')', '$']))) = some e ∧
      ∀ s, e.Found s ↔ (∃ text ∈ texts, Covers text s) ∨ Covers last s := by
  obtain ⟨all, ran, all_iff⟩ := run_branches alone none [⟨none, [bol], false⟩]
  obtain ⟨e, denoted⟩ := Option.isSome_iff_exists.mp lastAlone
  obtain ⟨g, e', ran', closed, matches_iff⟩ := run_inside denoted all [⟨none, [bol], false⟩]
  refine ⟨cat bol (cat e' eol), ?_, fun s => ?_⟩
  · have opens : Reader.start.run ['^', '('] =
        some ⟨[⟨none, [], false⟩, ⟨none, [bol], false⟩], false⟩ := rfl
    have closes : Reader.run ⟨[g, ⟨none, [bol], false⟩], false⟩ [')', '$'] =
        some ⟨[⟨none, [eol, e', bol], false⟩], false⟩ := by
      simp [Reader.run, Reader.step, closed, Frame.push, Frame.edit]
    rw [read, Reader.run_append, opens, Option.bind_some, Reader.run_append, ran,
      Option.bind_some, Reader.run_append, ran', Option.bind_some, closes]
    rfl
  · rw [found_anchored, Whole, matches_iff, all_iff, covers_of_read denoted, Whole]
    simp [Branches]

/-! ## Plain texts -/

/-- A character that stands for itself, or the period. -/
def isPlain (c : Char) : Bool := c = '.' || c ∉ Frame.special

/-- The expression that a plain character denotes. -/
def plain (c : Char) : Ere := if c = '.' then any else char c

/-- A plain character is one more piece. -/
theorem edit_plain (f : Frame) {c : Char} (simple : isPlain c) :
    f.edit c = some (f.push (plain c) true) := by
  by_cases period : c = '.'
  · rw [period]
    rfl
  · have named : c ∉ Frame.special := by simpa [isPlain, period] using simple
    rw [plain, if_neg period]
    unfold Frame.edit
    split <;> first | rfl | exact absurd rfl period | exact absurd (by decide) named

/-- A text of plain characters adds a piece for each of them. -/
theorem run_plain {text : List Char} (simple : ∀ c ∈ text, isPlain c) (f : Frame)
    (below : List Frame) :
    ∃ g, Reader.run ⟨f :: below, false⟩ text = some ⟨g :: below, false⟩ ∧
      g.branches = f.branches ∧ g.pieces = (text.map plain).reverse ++ f.pieces := by
  induction text generalizing f with
  | nil => exact ⟨f, rfl, rfl, rfl⟩
  | cons c text ih =>
    have first := simple c List.mem_cons_self
    have other : c ∉ ['\\', '(', ')'] := by
      intro parenthesis
      revert first
      simp only [List.mem_cons, List.not_mem_nil, or_false] at parenthesis
      rcases parenthesis with rfl | rfl | rfl <;> decide
    obtain ⟨g, ran, branches, pieces⟩ :=
      ih (fun c later => simple c (List.mem_cons_of_mem _ later)) (f.push (plain c) true)
    refine ⟨g, ?_, branches, ?_⟩
    · rw [Reader.run, List.foldlM_cons, Reader.step_iff.mpr (.edit other (edit_plain f first))]
      exact ran
    · simp [pieces, Frame.push]

/-- A period agrees with every character, another one with itself. -/
def Agrees (p c : Char) : Prop := p = '.' ∨ p = c

/-- A plain character matches what agrees with it. -/
theorem matches_plain (p : Char) (before text after : List Char) :
    (plain p).Matches before text after ↔ ∃ c, text = [c] ∧ Agrees p c := by
  rw [plain]
  split
  · rename_i period
    simp [Matches, Agrees, period]
  · rename_i period
    simp [Matches, Agrees, period]

/-- Pieces one after the other match character by character. -/
theorem matches_foldr (text : List Char) (last : Char) (before s after : List Char) :
    ((text.map plain).foldr cat (plain last)).Matches before s after ↔
      List.Forall₂ Agrees (text ++ [last]) s := by
  induction text generalizing before s with
  | nil =>
    rw [List.map_nil, List.foldr_nil, matches_plain]
    constructor
    · rintro ⟨c, rfl, agrees⟩
      exact .cons agrees .nil
    · intro all
      cases all with
      | cons agrees rest =>
        cases rest
        exact ⟨_, rfl, agrees⟩
  | cons p text ih =>
    simp only [List.map_cons, List.foldr_cons, Matches, ih, matches_plain]
    constructor
    · rintro ⟨_, right, rfl, ⟨c, rfl, agrees⟩, rest⟩
      exact .cons agrees rest
    · intro all
      cases all with
      | cons agrees rest => exact ⟨_, _, rfl, ⟨_, rfl, agrees⟩, rest⟩

/-- A plain text matches the strings that agree with it at every position. -/
theorem covers_plain {text : List Char} (simple : ∀ c ∈ text, isPlain c) (some_text : text ≠ [])
    (s : List Char) : (read text).isSome ∧ (Covers text s ↔ List.Forall₂ Agrees text s) := by
  obtain ⟨init, last, rfl⟩ : ∃ init last, text = init ++ [last] :=
    (List.eq_nil_or_concat' text).resolve_left some_text
  obtain ⟨⟨branches, pieces, repeatable⟩, ran, rfl, rfl⟩ := run_plain simple .start []
  have denoted : read (init ++ [last]) = some ((init.map plain).foldr cat (plain last)) := by
    rw [read, Reader.start, ran]
    simp [Reader.finish, Frame.close, Frame.start, List.foldl_reverse]
  refine ⟨by rw [denoted]; rfl, ?_⟩
  rw [covers_of_read denoted, Whole, matches_foldr]

/-- A text without periods matches itself only. -/
theorem covers_literal {text : List Char} (simple : ∀ c ∈ text, isPlain c) (period : '.' ∉ text)
    (some_text : text ≠ []) (s : List Char) :
    (read text).isSome ∧ (Covers text s ↔ s = text) := by
  obtain ⟨denoted, covers_iff⟩ := covers_plain simple some_text s
  refine ⟨denoted, covers_iff.trans ⟨fun all => ?_, ?_⟩⟩
  · have others : ∀ c ∈ text, c ≠ '.' := fun c member same => period (same ▸ member)
    have equal : List.Forall₂ Eq text s :=
      ((List.forall₂_and_left _ _).mpr ⟨others, all⟩).imp fun c d h => h.2.resolve_left h.1
    rw [List.forall₂_eq_eq_eq] at equal
    exact equal.symm
  · rintro rfl
    exact List.forall₂_same.mpr fun c _ => .inr rfl

end Ere

end Machine
