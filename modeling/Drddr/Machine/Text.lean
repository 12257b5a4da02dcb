import Drddr.Machine.Format
import Mathlib.Data.List.DropRight
import Mathlib.Data.List.GetD

/-!
# Lines of a file

The functions of the C library that read a file line by line and look into a string. A string
is the characters before its end; a character is signed, so that one from 128 on is negative.
-/

namespace Machine

/-- The string at the start of a buffer that holds these characters. -/
def cstr (chars : List Char) : List Char := chars.takeWhile (· ≠ nul)

/-- `c < ' '`. -/
def isControl (c : Char) : Bool := c.toNat < 32 || 128 ≤ c.toNat

/-- `while (strlen (buf) > 0 && buf[strlen (buf) - 1] < ' ') buf[strlen (buf) - 1] = '\0'`. -/
def trim (text : List Char) : List Char := text.rdropWhile isControl

/-- `strchr`, as the distance from the start. -/
def strchr (text : List Char) (c : Char) : Option Nat := text.idxOf? c

/-- `strstr`, as the distance from the start. -/
def strstr : List Char → List Char → Option Nat
  | [], needle => if needle = [] then some 0 else none
  | c :: text, needle =>
    if needle.isPrefixOf (c :: text) then some 0 else (strstr text needle).map (· + 1)

/-! ## Reading -/

/-- What `fgets` takes from the front of a file when `room` characters fit. -/
def fgets : Nat → List Char → List Char
  | 0, _ => []
  | _, [] => []
  | room + 1, c :: file => if c = '\n' then [c] else c :: fgets room file

/-- The next `fuel` lines. -/
def fgetsAll (size : Nat) : Nat → List Char → List (List Char)
  | 0, _ => []
  | fuel + 1, file =>
    if file = [] then []
    else
      let line := fgets (size - 1) file
      line :: fgetsAll size fuel (file.drop line.length)

/-- `while (fgets (buf, size, f))`: every round takes a character at least. -/
def fgetsLines (size : Nat) (file : List Char) : List (List Char) :=
  fgetsAll size file.length file

/-- `fgets` leaves the line in the buffer, with its end; the rest of the buffer stays. -/
def store (buf : Nat → Char) (line : List Char) : Nat → Char :=
  fun k => (line ++ [nul]).getD k (buf k)

/-- A line that fits is read whole. -/
theorem fgets_line {room : Nat} {text : List Char} (whole : '\n' ∉ text) (fits : text.length < room)
    (rest : List Char) : fgets room (text ++ '\n' :: rest) = text ++ ['\n'] := by
  induction text generalizing room with
  | nil =>
    obtain ⟨room, rfl⟩ := Nat.exists_eq_succ_of_ne_zero (Nat.ne_of_gt fits)
    rfl
  | cons c text ih =>
    obtain ⟨room, rfl⟩ := Nat.exists_eq_succ_of_ne_zero (Nat.ne_of_gt (Nat.zero_lt_of_lt fits))
    have other : c ≠ '\n' := fun newline => whole (newline ▸ List.mem_cons_self)
    rw [List.cons_append, fgets, if_neg other,
      ih (fun later => whole (List.mem_cons_of_mem c later)) (by simpa using fits)]
    rfl

/-- A line that does not end before the room, or the file, does. -/
theorem fgets_text {room : Nat} {text : List Char} (whole : '\n' ∉ text) {rest : List Char}
    (ends : text.length = room ∨ rest = [] ∧ text.length ≤ room) :
    fgets room (text ++ rest) = text := by
  induction text generalizing room with
  | nil =>
    rcases ends with full | ⟨rfl, -⟩
    · rw [← full, List.length_nil, fgets]
    · cases room <;> rfl
  | cons c text ih =>
    obtain ⟨room, rfl⟩ : ∃ smaller, room = smaller + 1 := by
      refine Nat.exists_eq_succ_of_ne_zero ?_
      rw [List.length_cons] at ends
      omega
    have other : c ≠ '\n' := fun newline => whole (newline ▸ List.mem_cons_self)
    rw [List.cons_append, fgets, if_neg other,
      ih (fun later => whole (List.mem_cons_of_mem c later)) (by simpa using ends)]

/-- No line is longer than the room. -/
theorem length_fgets_le (room : Nat) (file : List Char) : (fgets room file).length ≤ room := by
  induction file generalizing room with
  | nil => cases room <;> exact Nat.zero_le _
  | cons c file ih =>
    cases room with
    | zero => exact Nat.zero_le _
    | succ room =>
      rw [fgets]
      split
      · simp
      · simpa using ih room

/-- A file that is not at its end yields a character. -/
theorem fgets_ne_nil {room : Nat} (some_room : 0 < room) {file : List Char} (more : file ≠ []) :
    fgets room file ≠ [] := by
  obtain ⟨room, rfl⟩ := Nat.exists_eq_succ_of_ne_zero (Nat.ne_of_gt some_room)
  obtain ⟨c, file, rfl⟩ := List.exists_cons_of_ne_nil more
  rw [fgets]
  split <;> exact List.cons_ne_nil _ _

/-- A newline is the last character of its line. -/
theorem newline_of_mem_fgets {room : Nat} {file line : List Char} {c : Char}
    (read : fgets room file = line ++ [c]) : '\n' ∉ line := by
  induction file generalizing room line with
  | nil => cases room <;> simp [fgets] at read
  | cons d file ih =>
    cases room with
    | zero => simp [fgets] at read
    | succ room =>
      rw [fgets] at read
      cases line with
      | nil => exact List.not_mem_nil
      | cons e line =>
        split at read
        · simp at read
        · rename_i other
          rw [List.cons_append, List.cons.injEq] at read
          rw [List.mem_cons, not_or]
          exact ⟨read.1 ▸ Ne.symm other, ih read.2⟩

/-- Rounds beyond the end of the file read nothing. -/
theorem fgetsAll_enough {size : Nat} (wide : 1 < size) {fuel fuel' : Nat} {file : List Char}
    (enough : file.length ≤ fuel) (enough' : file.length ≤ fuel') :
    fgetsAll size fuel file = fgetsAll size fuel' file := by
  induction fuel generalizing fuel' file with
  | zero =>
    rw [List.length_eq_zero_iff.mp (Nat.le_zero.mp enough)]
    cases fuel' <;> rfl
  | succ fuel ih =>
    cases fuel' with
    | zero =>
      rw [List.length_eq_zero_iff.mp (Nat.le_zero.mp enough')]
      rfl
    | succ fuel' =>
      simp only [fgetsAll]
      split
      · rfl
      · rename_i more
        have taken := List.length_pos_iff.mpr
          (fgets_ne_nil (show 0 < size - 1 by omega) more)
        have left := List.length_drop (i := (fgets (size - 1) file).length) (l := file)
        exact congrArg _ (ih (by omega) (by omega))

/-- A file that is not at its end yields a line and then the lines of the rest. -/
theorem fgetsLines_of_ne_nil {size : Nat} (wide : 1 < size) {file : List Char}
    (more : file ≠ []) :
    fgetsLines size file = fgets (size - 1) file ::
      fgetsLines size (file.drop (fgets (size - 1) file).length) := by
  have taken := List.length_pos_iff.mpr (fgets_ne_nil (show 0 < size - 1 by omega) more)
  have left := List.length_drop (i := (fgets (size - 1) file).length) (l := file)
  obtain ⟨fuel, count⟩ := Nat.exists_eq_succ_of_ne_zero
    (Nat.ne_of_gt (List.length_pos_iff.mpr more))
  rw [fgetsLines, count, fgetsAll, if_neg more]
  exact congrArg _ (fgetsAll_enough wide (by omega) (Nat.le_refl _))

/-- The lines of a file whose first one fits. -/
theorem fgetsLines_line {size : Nat} {text : List Char} (whole : '\n' ∉ text)
    (fits : text.length + 1 < size) (rest : List Char) :
    fgetsLines size (text ++ '\n' :: rest) = (text ++ ['\n']) :: fgetsLines size rest := by
  have left : (text ++ '\n' :: rest).drop (text ++ ['\n']).length = rest := by
    rw [List.append_cons text '\n' rest, List.drop_left]
  rw [fgetsLines_of_ne_nil (by omega) (by simp), fgets_line whole (by omega), left]

/-- A line that fills the buffer is read without its newline, which is a line of its own. -/
theorem fgetsLines_full {size : Nat} {text : List Char} (whole : '\n' ∉ text)
    (full : text.length + 1 = size) (more : text ≠ []) (rest : List Char) :
    fgetsLines size (text ++ '\n' :: rest) = text :: ['\n'] :: fgetsLines size rest := by
  have some_text := List.length_pos_iff.mpr more
  have taken : fgets (size - 1) (text ++ '\n' :: rest) = text :=
    fgets_text whole (.inl (by omega))
  have newline := fgetsLines_line List.not_mem_nil (show 0 + 1 < size by omega) rest
  rw [fgetsLines_of_ne_nil (by omega) (by simp), taken, List.drop_left]
  exact congrArg _ newline

/-- The last line may lack its newline. -/
theorem fgetsLines_last {size : Nat} {text : List Char} (whole : '\n' ∉ text)
    (fits : text.length < size) (more : text ≠ []) : fgetsLines size text = [text] := by
  have some_text := List.length_pos_iff.mpr more
  have taken : fgets (size - 1) text = text := by
    have read := @fgets_text (size - 1) text whole [] (.inr ⟨rfl, by omega⟩)
    rwa [List.append_nil] at read
  rw [fgetsLines_of_ne_nil (by omega) more, taken, List.drop_length]
  rfl

/-- The lines of a file that begins with lines that fit. -/
theorem fgetsLines_flatMap_append {size : Nat} {texts : List (List Char)}
    (whole : ∀ text ∈ texts, '\n' ∉ text) (fits : ∀ text ∈ texts, text.length + 1 < size)
    (rest : List Char) :
    fgetsLines size (texts.flatMap (· ++ ['\n']) ++ rest) =
      texts.map (· ++ ['\n']) ++ fgetsLines size rest := by
  induction texts with
  | nil => rfl
  | cons text texts ih =>
    have later := ih (fun text later => whole text (List.mem_cons_of_mem _ later))
      (fun text later => fits text (List.mem_cons_of_mem _ later))
    rw [List.flatMap_cons, List.append_assoc, List.append_assoc, List.singleton_append,
      fgetsLines_line (whole text List.mem_cons_self) (fits text List.mem_cons_self), later,
      List.map_cons, List.cons_append]

/-- The lines of a file that is made of lines that fit. -/
theorem fgetsLines_flatMap {size : Nat} {texts : List (List Char)}
    (whole : ∀ text ∈ texts, '\n' ∉ text) (fits : ∀ text ∈ texts, text.length + 1 < size) :
    fgetsLines size (texts.flatMap (· ++ ['\n'])) = texts.map (· ++ ['\n']) := by
  have lines := fgetsLines_flatMap_append whole fits []
  rw [List.append_nil] at lines
  exact lines.trans (List.append_nil _)

/-- Every line is what one call took before the end of the file. -/
theorem fgets_of_mem_fgetsLines {size : Nat} {file line : List Char}
    (read : line ∈ fgetsLines size file) : ∃ rest ≠ [], line = fgets (size - 1) rest := by
  suffices every : ∀ fuel file, line ∈ fgetsAll size fuel file →
      ∃ rest ≠ [], line = fgets (size - 1) rest from every _ _ read
  intro fuel
  induction fuel with
  | zero => exact fun _ read => absurd read List.not_mem_nil
  | succ fuel ih =>
    intro file read
    rw [fgetsAll] at read
    split at read
    · exact absurd read List.not_mem_nil
    · rename_i more
      rcases List.mem_cons.mp read with rfl | later
      · exact ⟨file, more, rfl⟩
      · exact ih _ later

/-- No line that is read is empty. -/
theorem ne_nil_of_mem_fgetsLines {size : Nat} (wide : 1 < size) {file line : List Char}
    (read : line ∈ fgetsLines size file) : line ≠ [] := by
  obtain ⟨rest, more, whole⟩ := fgets_of_mem_fgetsLines read
  rw [whole]
  exact fgets_ne_nil (by omega) more

/-- A call that is given what it took takes it again. -/
theorem fgets_fgets (room : Nat) (file : List Char) :
    fgets room (fgets room file) = fgets room file := by
  induction file generalizing room with
  | nil => cases room <;> rfl
  | cons c file ih =>
    cases room with
    | zero => rfl
    | succ room =>
      rw [fgets]
      by_cases newline : c = '\n'
      · rw [if_pos newline, fgets, if_pos newline]
      · rw [if_neg newline, fgets, if_neg newline, ih]

/-- A line that is read is a file of one line. -/
theorem fgetsLines_of_mem {size : Nat} (wide : 1 < size) {file line : List Char}
    (read : line ∈ fgetsLines size file) : fgetsLines size line = [line] := by
  have more := ne_nil_of_mem_fgetsLines wide read
  obtain ⟨rest, -, whole⟩ := fgets_of_mem_fgetsLines read
  have again : fgets (size - 1) line = line := by rw [whole, fgets_fgets]
  rw [fgetsLines_of_ne_nil wide more, again, List.drop_length]
  rfl

/-! ## The buffer -/

/-- A line and its end cover the front of the buffer. -/
theorem store_of_le (buf buf' : Nat → Char) {line : List Char} {k : Nat}
    (inside : k ≤ line.length) : store buf line k = store buf' line k := by
  have within : k < (line ++ [nul]).length := by
    rw [List.length_append, List.length_singleton]
    omega
  rw [store, store, List.getD_eq_getElem _ _ within, List.getD_eq_getElem _ _ within]

/-- What is behind a line and its end stays in the buffer. -/
theorem store_of_lt (buf : Nat → Char) {line : List Char} {k : Nat} (behind : line.length < k) :
    store buf line k = buf k := by
  have outside : (line ++ [nul]).length ≤ k := by
    rw [List.length_append, List.length_singleton]
    omega
  rw [store, List.getD_eq_default _ _ outside]

/-! ## Trimmed lines -/

/-- What is left ends in no control character. -/
theorem not_isControl_of_trim {text init : List Char} {c : Char}
    (ends : trim text = init ++ [c]) : ¬ isControl c := by
  have left : text.rdropWhile isControl = init ++ [c] := ends
  have last := List.rdropWhile_last_not isControl text (by simp [left])
  simpa only [left, List.getLast_append_singleton] using last

/-- A trimmed line is a front of the line. -/
theorem trim_cstr_isFront (line : List Char) : trim (cstr line) <+: line :=
  (List.rdropWhile_prefix isControl _).trans (List.takeWhile_prefix _)

/-- A trimmed line holds no newline. -/
theorem newline_not_mem_trim {size : Nat} {file line : List Char}
    (read : line ∈ fgetsLines size file) : '\n' ∉ trim (cstr line) := by
  obtain ⟨rest, -, whole⟩ := fgets_of_mem_fgetsLines read
  obtain ⟨tail, kept⟩ := trim_cstr_isFront line
  rcases List.eq_nil_or_concat tail with rfl | ⟨tail, last, rfl⟩
  · rcases List.eq_nil_or_concat (trim (cstr line)) with none_left | ⟨text, last, ends⟩
    · rw [none_left]
      exact List.not_mem_nil
    · -- a newline could only be the last character, which has been trimmed
      rw [List.concat_eq_append] at ends
      rw [List.append_nil, ends] at kept
      rw [ends, List.mem_append, List.mem_singleton, not_or]
      refine ⟨newline_of_mem_fgets (whole.symm.trans kept.symm), ?_⟩
      rintro rfl
      exact not_isControl_of_trim ends (by decide)
  · rw [List.concat_eq_append, ← List.append_assoc] at kept
    exact fun newline => newline_of_mem_fgets (whole.symm.trans kept.symm)
      (List.mem_append_left _ newline)

/-- A trimmed line is shorter than the buffer. -/
theorem length_trim_lt {size : Nat} (wide : 1 < size) {file line : List Char}
    (read : line ∈ fgetsLines size file) : (trim (cstr line)).length < size := by
  obtain ⟨rest, -, whole⟩ := fgets_of_mem_fgetsLines read
  have shorter := (trim_cstr_isFront line).length_le
  have room := length_fgets_le (size - 1) rest
  rw [whole] at shorter ⊢
  omega

/-- A string holds all characters that are before its end. -/
theorem cstr_eq_self {text : List Char} (string : nul ∉ text) : cstr text = text := by
  rw [cstr, List.takeWhile_eq_self_iff]
  intro c member
  simpa using ne_of_mem_of_not_mem member string

/-- A string without a control character at its end stays as it is. -/
theorem trim_cstr {text : List Char} (string : nul ∉ text)
    (ending : ∀ c, text.getLast? = some c → ¬ isControl c) : trim (cstr text) = text := by
  rw [cstr_eq_self string, trim, List.rdropWhile_eq_self_iff]
  intro more
  exact ending _ (List.getLast?_eq_some_getLast more)

/-- Trimming cuts off a newline at the end. -/
theorem trim_cstr_newline {text : List Char} (string : nul ∉ text)
    (ending : ∀ c, text.getLast? = some c → ¬ isControl c) :
    trim (cstr (text ++ ['\n'])) = text := by
  have clean : nul ∉ text ++ ['\n'] := by
    rw [List.mem_append, not_or]
    exact ⟨string, by decide⟩
  have rest := trim_cstr string ending
  rw [cstr_eq_self string] at rest
  rw [cstr_eq_self clean, trim, List.rdropWhile_concat_pos _ _ _ (by decide)]
  exact rest

/-! ## Looking into a string -/

/-- `strchr` finds the first place of a character. -/
theorem strchr_eq_some {text : List Char} {c : Char} {p : Nat} : strchr text c = some p ↔
    ∃ before rest, text = before ++ c :: rest ∧ c ∉ before ∧ before.length = p := by
  rw [strchr, List.idxOf?_eq_some_iff]
  constructor
  · intro ⟨inside, here, first⟩
    refine ⟨text.take p, text.drop (p + 1), ?_, ?_, List.length_take_of_le (Nat.le_of_lt inside)⟩
    · rw [← here, List.cons_getElem_drop_succ, List.take_append_drop]
    · intro member
      obtain ⟨j, small, same⟩ := List.mem_iff_getElem.mp member
      rw [List.length_take_of_le (Nat.le_of_lt inside)] at small
      rw [List.getElem_take] at same
      exact first j small same
  · rintro ⟨before, rest, rfl, absent, rfl⟩
    refine ⟨by simp, by simp, fun j small same => ?_⟩
    rw [List.getElem_append_left small] at same
    exact absent (same ▸ List.getElem_mem small)

/-- `strchr` finds nothing in a string without the character. -/
theorem strchr_eq_none {text : List Char} {c : Char} : strchr text c = none ↔ c ∉ text :=
  List.idxOf?_eq_none_iff

/-- `strstr` returns a place where the string is. -/
theorem strstr_eq_some {text needle : List Char} {k : Nat} (found : strstr text needle = some k) :
    needle <+: text.drop k := by
  induction text generalizing k with
  | nil =>
    rw [strstr] at found
    split at found
    · rename_i empty
      rw [empty]
      exact List.nil_prefix
    · exact absurd found (by simp)
  | cons c text ih =>
    rw [strstr] at found
    split at found
    · rename_i front
      obtain rfl := Option.some.inj found
      exact List.isPrefixOf_iff_prefix.mp front
    · obtain ⟨j, later, rfl⟩ := Option.map_eq_some_iff.mp found
      exact ih later

/-- `strstr` finds a text at the first place where it stands. -/
theorem strstr_le {text needle : List Char} {k : Nat} (inside : k ≤ text.length)
    (here : needle <+: text.drop k) : ∃ j ≤ k, strstr text needle = some j := by
  induction text generalizing k with
  | nil =>
    rw [List.drop_nil, List.prefix_nil] at here
    exact ⟨0, Nat.zero_le k, if_pos here⟩
  | cons c text ih =>
    by_cases front : needle.isPrefixOf (c :: text) = true
    · exact ⟨0, Nat.zero_le k, if_pos front⟩
    · cases k with
      | zero => exact absurd (List.isPrefixOf_iff_prefix.mpr here) front
      | succ k =>
        obtain ⟨j, le, found⟩ := ih (Nat.le_of_succ_le_succ inside) here
        refine ⟨j + 1, Nat.succ_le_succ le, ?_⟩
        rw [strstr, if_neg front, found, Option.map_some]

/-- A string begins with another one that is found at its start. -/
theorem strstr_eq_zero {text needle : List Char} :
    strstr text needle = some 0 ↔ needle <+: text := by
  constructor
  · exact fun found => strstr_eq_some found
  · intro front
    obtain ⟨j, le, found⟩ := strstr_le (Nat.zero_le text.length) front
    rwa [Nat.le_zero.mp le] at found

/-- `strstr` finds a text that stands anywhere. -/
theorem strstr_isSome {text needle : List Char} :
    (strstr text needle).isSome ↔ needle <:+: text := by
  constructor
  · intro some_place
    obtain ⟨k, found⟩ := Option.isSome_iff_exists.mp some_place
    exact (strstr_eq_some found).isInfix.trans (List.drop_suffix k text).isInfix
  · rintro ⟨before, rest, rfl⟩
    have here : needle <+: (before ++ needle ++ rest).drop before.length := by
      rw [List.append_assoc, List.drop_left]
      exact List.prefix_append needle rest
    obtain ⟨j, -, found⟩ := strstr_le (by simp) here
    rw [found]
    rfl

end Machine
