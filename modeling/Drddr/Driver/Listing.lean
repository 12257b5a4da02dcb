import Drddr.Bp.Overlay
import Drddr.Driver.Draws
import Mathlib.Data.List.GetD

/-!
# The list of a session

Whoever writes the `address` file hands its bytes over in any pieces. `start` then takes the words
that they are as the list of its session, and plants `INT3` at the ones that it arms.
-/

namespace Drddr

open Machine Memory

/-! ## Writing the file -/

/-- `write_address`: the file, and the position after the write. -/
def Files.writeAddress (f : Files) (pos : Nat) (buf : List Byte) : Files × Nat :=
  (f.write (.address pos buf), pos + min buf.length (N_ADDRESS * 8 - pos))

/-- A writer that goes on where its last write has ended. -/
def Files.writePieces (f : Files) (pos : Nat) (pieces : List (List Byte)) : Files × Nat :=
  pieces.foldl (fun s buf => s.1.writeAddress s.2 buf) (f, pos)

/-- Two writes, the second one where the first one has ended, are one. -/
theorem Files.write_append (f : Files) {pos : Nat} (buf buf' : List Byte) :
    (f.writeAddress pos buf).1.write (.address (f.writeAddress pos buf).2 buf') =
      f.write (.address pos (buf ++ buf')) := by
  have bytes (k : Nat) :
      simpleWriteToBuffer (simpleWriteToBuffer f.address (N_ADDRESS * 8) pos buf) (N_ADDRESS * 8)
          (pos + min buf.length (N_ADDRESS * 8 - pos)) buf' k =
        simpleWriteToBuffer f.address (N_ADDRESS * 8) pos (buf ++ buf') k := by
    unfold simpleWriteToBuffer
    by_cases later : pos + buf.length ≤ k
    · by_cases inside : k < N_ADDRESS * 8
      · rw [if_pos (by omega), if_pos (by omega), if_pos (by omega),
          List.getD_append_right _ _ _ _ (by omega), List.getD_eq_default buf _ (by omega),
          Nat.min_eq_left (by omega)]
        congr 1
        omega
      · rw [if_neg (by omega), if_neg (by omega), if_neg (by omega)]
    · rw [if_neg (by omega)]
      by_cases here : pos ≤ k ∧ k < N_ADDRESS * 8
      · rw [if_pos here, if_pos here, List.getD_append _ _ _ _ (by omega)]
      · rw [if_neg here, if_neg here]
  show { f with address := _ } = { f with address := _ }
  congr 1
  funext k
  exact bytes k

/-- It does not matter into which pieces the bytes of the list are cut. -/
theorem Files.writePieces_eq (f : Files) (pos : Nat) (pieces : List (List Byte)) :
    (f.writePieces pos pieces).1 = f.write (.address pos pieces.flatten) := by
  induction pieces generalizing f pos with
  | nil =>
    have bytes : simpleWriteToBuffer f.address (N_ADDRESS * 8) pos [] = f.address := by
      funext k
      exact ite_self _
    show f = { f with address := simpleWriteToBuffer f.address (N_ADDRESS * 8) pos [] }
    rw [bytes]
  | cons buf pieces ih =>
    have rest := ih (f.writeAddress pos buf).1 (f.writeAddress pos buf).2
    rw [f.write_append] at rest
    exact rest

/-- The bytes of a word. -/
def wordBytes (w : Word) : List Byte := (List.range 8).map (byteOf w)

/-- The bytes of a list of words are those of its words, eight to a word. -/
theorem getElem?_wordBytes (words : List Word) {i k : Nat} (byte : k < 8) :
    (words.flatMap wordBytes)[8 * i + k]? = words[i]?.map fun w => byteOf w k := by
  induction words generalizing i with
  | nil => simp
  | cons w words ih =>
    have size : (wordBytes w).length = 8 := by simp [wordBytes]
    rw [List.flatMap_cons]
    cases i with
    | zero =>
      rw [List.getElem?_append_left (by omega)]
      simp [wordBytes, byte]
    | succ i =>
      rw [List.getElem?_append_right (by omega), size, List.getElem?_cons_succ, ← ih]
      congr 1
      omega

/-- Bytes of a word that are put together again, from one of them on, have the bits of the word. -/
theorem getLsbD_foldr_byteOf (w : Word) (s n i : Nat) :
    ((List.range' s n).foldr
        (fun k (word : Word) => word <<< 8 ||| (byteOf w k).setWidth 64) 0).getLsbD i =
      (decide (i < 64) && decide (i < 8 * n) && w.getLsbD (8 * s + i)) := by
  induction n generalizing s i with
  | zero => simp
  | succ n ih =>
    rw [List.range'_succ, List.foldr_cons, BitVec.getLsbD_or, BitVec.getLsbD_shiftLeft, ih]
    simp only [byteOf, BitVec.getLsbD_setWidth, BitVec.getLsbD_ushiftRight]
    by_cases low : i < 8
    · have inside : i < 8 * (n + 1) := by omega
      simp [low, inside]
    · have place : 8 * (s + 1) + (i - 8) = 8 * s + i := by omega
      have small : i - 8 < 8 * n ↔ i < 8 * (n + 1) := by omega
      rw [place]
      by_cases word : i < 64
      · have below : i - 8 < 64 := by omega
        simp [low, small, word, below]
      · simp [word]

/-- The eight bytes of a word make up the word again. -/
theorem foldr_byteOf (w : Word) :
    (List.range 8).foldr (fun k (word : Word) => word <<< 8 ||| (byteOf w k).setWidth 64) 0 =
      w := by
  apply BitVec.eq_of_getLsbD_eq
  intro i below
  rw [List.range_eq_range', getLsbD_foldr_byteOf, Nat.mul_zero, Nat.zero_add]
  simp [below]

/-- What has been written is what `start` reads. -/
theorem Files.entry_write (f : Files) {words : List Word} (few : words.length ≤ N_ADDRESS)
    {i : Nat} (inside : i < words.length) :
    (f.write (.address 0 (words.flatMap wordBytes))).entry i = words[i] := by
  have bytes : ∀ k ∈ List.range 8,
      (f.write (.address 0 (words.flatMap wordBytes))).address (8 * i + k) =
        byteOf words[i] k := by
    intro k member
    have byte := List.mem_range.mp member
    have found := @getElem?_wordBytes words i k byte
    rw [List.getElem?_eq_getElem inside] at found
    show simpleWriteToBuffer f.address (N_ADDRESS * 8) 0 _ (8 * i + k) = _
    unfold simpleWriteToBuffer
    rw [if_pos ⟨Nat.zero_le _, by omega⟩, Nat.sub_zero, List.getD_eq_getElem?_getD, found]
    rfl
  unfold Files.entry
  rw [← foldr_byteOf words[i]]
  apply List.foldr_ext
  intro k member word
  rw [bytes k member]

/-! ## The list -/

variable {random : Nat → BitVec 32} {f : Files} {old : Bp}

/-- `bp_add` does not return to `bp_init`. -/
theorem StartLoop.next_ne_init (caller : StartLoop) (p i : BitVec 32) :
    caller.next p ≠ .init i := by
  cases caller with
  | single | stride | count => exact StartPc.noConfusion

/-- No step behind `bp_init` leads back into it. -/
theorem Start.advance_ne_init {c : Start} (behind : ∀ i, c.pc ≠ .init i) (i : BitVec 32) :
    (c.advance random).pc ≠ .init i := by
  obtain ⟨files, bp, running, drawn, pc⟩ := c
  cases pc with
  | init i => exact absurd rfl (behind i)
  | choose =>
    simp only [Start.advance]
    split_ifs <;> exact StartPc.noConfusion
  | stride | count =>
    simp only [Start.advance]
    split_ifs <;> exact StartPc.noConfusion
  | add choice caller =>
    have next := caller.next_ne_init files.iParam i
    simp only [Start.advance]
    split_ifs <;> first | exact next | exact StartPc.noConfusion
  | pick caller =>
    have next := caller.next_ne_init files.iParam i
    simp only [Start.advance]
    split_ifs <;> first | exact next | exact StartPc.noConfusion
  | finish | done | fault => exact StartPc.noConfusion

/-- Behind `bp_init` a step of `start` leaves the table as it is, or arms an entry that is free. -/
theorem StartInvariant.table_cases (bounded : Bounded f) {c : Start} (inv : StartInvariant f old c)
    (behind : ∀ i, c.pc ≠ .init i) :
    (c.step random).bp = c.bp ∨
      ∃ i < f.entries, c.bp.bpState i ≠ .USING ∧ (c.step random).bp = c.bp.arm i := by
  have good : StepHolds random f old c := inv.stepHolds bounded
  rw [good.step_eq]
  obtain ⟨files, bp, running, drawn, pc⟩ := c
  cases pc with
  | init i => exact absurd rfl (behind i)
  | stride | count | finish | done | fault => exact .inl rfl
  | choose =>
    left
    simp only [Start.advance]
    split
    · rfl
    · split
      · rfl
      · rfl
  | add choice caller =>
    obtain rfl : files = f := inv.files (by simp)
    have count : bp.bpCount = files.uAddresscnt.toInt := inv.count
    by_cases stopping : bp.bpStopping = true
    · exact .inl (by simp [Start.advance, stopping])
    · have still : bp.bpStopping = false := by simpa using stopping
      by_cases none : choice = -1
      · rw [none, advance_add_random random still]
        exact .inl rfl
      · by_cases refused : bp.bpCount ≤ choice.toInt ∨ bp.bpState choice.toNat = .USING
        · rw [advance_add_refused random still none refused]
          exact .inl rfl
        · obtain ⟨below, free⟩ := not_or.mp refused
          have inside := good.inside choice.toInt
          rw [indices_add random still, if_neg (not_or.mpr ⟨none, below⟩)] at inside
          have table := inside (List.mem_append_right _ (List.mem_singleton.mpr rfl))
          rw [advance_add_armed random still none below free]
          refine .inr ⟨choice.toNat, ?_, free, rfl⟩
          have number := toInt_cases choice
          have positive := table.1
          rw [count] at below
          unfold Files.entries
          omega
  | pick caller =>
    obtain rfl : files = f := inv.files (by simp)
    obtain ⟨-, -, -, some_entry, -⟩ := inv.picking rfl
    have number : (Start.draw random ⟨files, bp, running, drawn, .pick caller⟩).toNat =
        files.drawnEntry (random drawn) := draw_eq bounded inv.count some_entry
    generalize picked : Start.draw random ⟨files, bp, running, drawn, .pick caller⟩ = k at number
    by_cases used : bp.bpState k.toNat = .USING
    · rw [advance_pick_again random picked used]
      exact .inl rfl
    · rw [advance_pick_armed random picked used]
      refine .inr ⟨k.toNat, ?_, used, rfl⟩
      rw [number]
      exact Nat.mod_lt _ some_entry

/-- The list is that of the files as far as `bp_init` has come, and behind `bp_init` what is planted
lies over the memory before it, if no address is listed twice. -/
def ListHeld (f : Files) (original : Memory) (c : Start) : Prop :=
  match c.pc with
  | .init i => (∀ j < i.toNat, c.bp.bpAddr j = f.entry j) ∧ c.bp.text = original
  | _ => (∀ j < f.entries, c.bp.bpAddr j = f.entry j) ∧
      ((∀ i < f.entries, ∀ j < f.entries, f.entry i = f.entry j → i = j) →
        c.bp.Overlays original)

/-- Behind `bp_init`, the list is held just when the entries hold the addresses of the files and, if
these are distinct, the memory is overlaid. -/
theorem listHeld_iff {original : Memory} {c : Start} (behind : ∀ i, c.pc ≠ .init i) :
    ListHeld f original c ↔ (∀ j < f.entries, c.bp.bpAddr j = f.entry j) ∧
      ((∀ i < f.entries, ∀ j < f.entries, f.entry i = f.entry j → i = j) →
        c.bp.Overlays original) := by
  obtain ⟨files, bp, running, drawn, pc⟩ := c
  cases pc with
  | init i => exact absurd rfl (behind i)
  | choose | stride | count | add | pick | finish | done | fault => exact Iff.rfl

/-- The end of `bp_init`: the whole list is in the table, and nothing is planted. -/
theorem overlays_of_fresh {bp : Bp} (few : f.uAddresscnt.toNat ≤ N_ADDRESS)
    (count : bp.bpCount = f.uAddresscnt.toInt) (addr : ∀ j < f.entries, bp.bpAddr j = f.entry j)
    (fresh : ∀ j < f.entries, bp.bpState j = .UNUSED)
    (distinct : ∀ i < f.entries, ∀ j < f.entries, f.entry i = f.entry j → i = j) :
    bp.Overlays bp.text := by
  have number := entries_cases f
  have sign := toInt_cases f.uAddresscnt
  simp only [N_ADDRESS] at few
  have inside (i : Nat) (below : (i : Int) < bp.bpCount) : i < f.entries := by
    rw [count] at below
    omega
  have unarmed (i : Nat) : ¬bp.Armed i := by
    intro armed
    have used := armed.2
    rw [fresh i (inside i armed.1)] at used
    exact BpState.noConfusion used
  have bare : bp.planted = ∅ := by
    apply Set.eq_empty_of_forall_notMem
    intro a planted
    obtain ⟨i, armed, -⟩ := planted
    exact unarmed i armed
  constructor
  · rw [count]
    omega
  · intro i j below below' same
    rw [addr i (inside i below), addr j (inside j below')] at same
    exact distinct i (inside i below) j (inside j below') same
  · rw [bare, overlay_empty]
  · exact fun i armed => absurd armed (unarmed i)

/-- Every step of `start` keeps the list held. -/
theorem ListHeld.step (few : f.uAddresscnt.toNat ≤ N_ADDRESS) {original : Memory} {c : Start}
    (inv : StartInvariant f old c) (held : ListHeld f original c) :
    ListHeld f original (c.step random) := by
  have bounded : Bounded f := .inl few
  have good : StepHolds random f old c := inv.stepHolds bounded
  by_cases filling : ∃ i, c.pc = .init i
  · obtain ⟨i, here⟩ := filling
    rw [good.step_eq]
    have next : StartInvariant f old (c.advance random) := good.keeps
    obtain ⟨files, bp, running, drawn, pc⟩ := c
    obtain rfl : pc = .init i := here
    obtain rfl : files = f := inv.files (by simp)
    obtain ⟨addr, text⟩ := held
    have most : i.toNat ≤ files.entries := inv.holds.1
    by_cases below : i.toInt < files.uAddresscnt.toInt
    · have room : i.toNat < files.entries := by
        have number := entries_cases files
        have sign := toInt_cases files.uAddresscnt
        have sign' := toInt_cases i
        omega
      rw [advance_init random below]
      refine ⟨fun j before => ?_, text⟩
      show Function.update bp.bpAddr i.toNat (files.entry i.toNat) j = files.entry j
      by_cases last : j = i.toNat
      · rw [last, Function.update_self]
      · rw [Function.update_of_ne last]
        have one := toNat_succ room
        exact addr j (by omega)
    · have all : files.entries ≤ i.toNat := by
        have number := entries_cases files
        have sign := toInt_cases files.uAddresscnt
        have sign' := toInt_cases i
        simp only [N_ADDRESS] at few
        omega
      rw [advance_init_end random below] at next ⊢
      have listed : ∀ j < files.entries, bp.bpAddr j = files.entry j :=
        fun j inside => addr j (Nat.lt_of_lt_of_le inside all)
      exact ⟨listed, fun distinct => text ▸ overlays_of_fresh few next.count listed next.holds.2
        distinct⟩
  · have behind : ∀ i, c.pc ≠ .init i := fun i here => filling ⟨i, here⟩
    have after : ∀ i, (c.step random).pc ≠ .init i := by
      rw [good.step_eq]
      exact Start.advance_ne_init behind
    obtain ⟨addr, overlays⟩ := (listHeld_iff behind).mp held
    apply (listHeld_iff after).mpr
    have table : (c.step random).bp = c.bp ∨
        ∃ i < f.entries, c.bp.bpState i ≠ .USING ∧ (c.step random).bp = c.bp.arm i :=
      inv.table_cases bounded behind
    rcases table with same | ⟨i, inside, free, armed⟩
    · rw [same]
      exact ⟨addr, overlays⟩
    · rw [armed]
      refine ⟨addr, fun distinct => (overlays distinct).arm ?_ free⟩
      have number := entries_cases f
      have sign := toInt_cases f.uAddresscnt
      rw [inv.count]
      omega

/-- What `start` returns with lists the addresses of the files, and if none of them is there twice,
the memory is the one before it with `INT3` at what is armed. -/
theorem list_of_returnsTo (few : f.uAddresscnt.toNat ≤ N_ADDRESS) {bp : Bp} {c : Start}
    (returns : ReturnsTo random (starting f bp) c) :
    (∀ j < f.entries, c.bp.bpAddr j = f.entry j) ∧
      ((∀ i < f.entries, ∀ j < f.entries, f.entry i = f.entry j → i = j) →
        c.bp.Overlays bp.text) := by
  have both : StartInvariant f bp c ∧ ListHeld f bp.text c :=
    returns.2.invariant (I := fun c => StartInvariant f bp c ∧ ListHeld f bp.text c)
      (fun c held => ⟨held.1.step (.inl few), held.2.step few held.1⟩)
      ⟨startInvariant_starting f bp, fun j before => absurd before (Nat.not_lt_zero j), rfl⟩
  have behind : ∀ i, c.pc ≠ .init i := by
    rw [returns.1]
    exact fun i => StartPc.noConfusion
  exact (listHeld_iff behind).mp both.2

end Drddr
