import Drddr.Analyzer.Program
import Drddr.Driver.Listing
import Drddr.Shell
import Mathlib.Data.Set.Card

/-!
# From a listing to the breakpoints

The analyzer prints the candidate instructions of a listing, `load` of the shell hands their
addresses to the driver, and `start` plants breakpoints at some of them. Each of the three has its
own idea of a line, an address or an entry; here they are put together.
-/

namespace Drddr

open Machine Analyzer Shell

/-- What `load` leaves in the files of the driver: the bytes of the addresses come in any pieces,
and a file of debugfs takes a number as it is written. -/
def Files.loaded (f : Files) (pieces : List (List Byte)) (count : Nat) : Files :=
  (f.writePieces 0 pieces).1.write (.addresscnt (BitVec.ofNat 32 count))

/-- The text of the address on a line. -/
def addressText (line : List Char) : List Char := line.take 16

/-! ## The analyzer and the shell -/

variable {matched : List Char → Bool} {lines : List (List Char)} {file : List Char}

/-- From the beginning of a listing on, the lines that are printed are the candidates. -/
theorem isPrintedFrom_iff {i : Nat} :
    IsPrintedFrom matched false lines i ↔ IsCandidateLine matched lines i := by
  constructor
  · intro here
    obtain ⟨digits, access, offStack⟩ := isPrinted_iff.mp here.printed
    exact ⟨here.listed, here.noHeader, digits, access, offStack,
      here.function.resolve_right fun first => Bool.false_ne_true first.1⟩
  · intro here
    exact ⟨here.listed, here.noHeader,
      isPrinted_iff.mpr ⟨here.address, here.access, here.offStack⟩, .inl here.function⟩

/-- The places of the candidates, in order. -/
structure CandidatePlaces (matched : List Char → Bool) (lines : List (List Char))
    (places : List Nat) : Prop where
  increasing : places.Pairwise (· < ·)
  exactly : ∀ i, i ∈ places ↔ IsCandidateLine matched lines i

/-- Each place of a candidate is there once. -/
theorem CandidatePlaces.nodup {places : List Nat}
    (candidates : CandidatePlaces matched lines places) :
    places.Nodup := candidates.increasing.imp fun less => Nat.ne_of_lt less

/-- There are as many places as candidates. -/
theorem CandidatePlaces.length {places : List Nat}
    (candidates : CandidatePlaces matched lines places) :
    {i | IsCandidateLine matched lines i}.ncard = places.length := by
  have same : {i | IsCandidateLine matched lines i} = ↑places.toFinset := by
    ext i
    rw [List.coe_toFinset]
    exact (candidates.exactly i).symm
  rw [same, Set.ncard_coe_finset, List.toFinset_card_of_nodup candidates.nodup]

/-- The shell reads the addresses of the candidates from the output of the analyzer. -/
theorem load_candidates (plain : ∀ line ∈ lines, PlainLine line) (whole : IsFileOf lines file)
    {cmd argument : List Char} {files : List Char → Option (List Char)}
    (output : files (loadName cmd argument) = some (parse .INSTR matched file)) (g : Globals) :
    ∃ loaded places, load files true true cmd argument g = .ok loaded ∧
      CandidatePlaces matched lines places ∧
      loaded.address.map (hex16 '0') = places.map (fun i => addressText (lines.getD i [])) ∧
      loaded.addresscnt = decimal places.length := by
  obtain ⟨places, increasing, listed, printed⟩ := @printedLines_places matched lines
    (fun line member => (plain line member).clean.2.1) false
  have text : ∀ i ∈ places, '\n' ∉ instrText (lines.getD i []) ∧
      (instrText (lines.getD i [])).length + 1 < BUF_SIZE ∧
      16 ≤ (instrText (lines.getD i [])).length ∧
      (instrText (lines.getD i [])).take 16 = addressText (lines.getD i []) ∧
      ∃ address, addressText (lines.getD i []) = hex16 '0' address := by
    intro i member
    have here := (listed i).mp member
    have inside : lines.getD i [] ∈ lines := by
      rw [List.getD_eq_getElem _ _ here.listed]
      exact List.getElem_mem _
    have line := plain _ inside
    obtain ⟨one, length, rest⟩ := instrText_spec here.printed line.clean.1
    have short := line.short
    refine ⟨one, ?_, rest⟩
    simp only [BUF_LEN, BUF_SIZE] at short ⊢
    omega
  rw [parse_INSTR, printedLines_file plain whole, printed, List.map_map] at output
  obtain ⟨loaded, ok, addresses, -, count, -⟩ := load_lines
    (List.forall_mem_map.mpr fun i member => (text i member).1)
    (List.forall_mem_map.mpr fun i member => (text i member).2.1)
    (List.forall_mem_map.mpr fun i member => (text i member).2.2.1) output g
  rw [List.length_map] at count
  refine ⟨loaded, places, ok, ⟨increasing, fun i => (listed i).trans isPrintedFrom_iff⟩, ?_, count⟩
  rw [addresses, List.map_map, List.map_map]
  refine List.map_congr_left fun i member => ?_
  obtain ⟨-, -, -, front, address, digits⟩ := text i member
  simp only [Function.comp_apply]
  rw [front, digits, readHex_hex16 digit_reads]

/-- `work.sh` goes over the listings of a subproject and of the kernel, and the shell loads what it
leaves. Where the functions of the subproject fit into a line as one expression, where the name of
each is an expression by itself, and where no more candidates are found than `address[]` has room
for, the addresses that the shell reads are those of the candidates of the kernel in the functions
that a function of the subproject matches whole or that are named as the alternative that closes the
expression, in the order of the listing and once each. -/
theorem work_loaded {regexec : List Char → List Char → Bool} (posix : Posix regexec)
    (empty : ∀ name, regexec [] name) {subproject kernel : List (List Char)}
    (plain : ∀ line ∈ subproject, PlainLine line) (plain' : ∀ line ∈ kernel, PlainLine line)
    {listing file : List Char} (whole : IsFileOf ([] :: subproject) listing)
    (whole' : IsFileOf kernel file)
    (fits : (parse .FUNC (fun _ => true) (listing.drop 1)).length < BUF_LEN)
    (alone : ∀ name, IsFunctionOf subproject name → (Ere.read name).isSome)
    {files : List Char → Option (List Char)} (found : files fsObjd = some listing)
    (found' : files vmlinux = some file)
    (few : ∀ selected, SelectsFrom subproject selected →
      {i | IsCandidateLine selected kernel i}.ncard ≤ N_ADDRESS)
    (terminal : List Char) (g : Globals) :
    ∃ selected loaded places, SelectsFrom subproject selected ∧
      load (workScript regexec terminal files).files true true "load fs.addr".toList
        "fs.addr".toList g = .ok loaded ∧
      CandidatePlaces selected kernel places ∧ places.length ≤ N_ADDRESS ∧
      loaded.address.map (hex16 '0') = places.map (fun i => addressText (kernel.getD i [])) ∧
      loaded.addresscnt = decimal places.length := by
  obtain ⟨selected, selects, written⟩ := @workScript_selects regexec terminal files posix empty
    subproject plain listing file whole fits alone found found'
  have output : (workScript regexec terminal files).files
      (loadName "load fs.addr".toList "fs.addr".toList) =
      some (parse .INSTR selected file) := written
  obtain ⟨loaded, places, ok, candidates, rest⟩ :=
    @load_candidates selected kernel file plain' whole' _ _ _ output g
  have room := few selected selects
  rw [candidates.length] at room
  exact ⟨selected, loaded, places, selects, ok, candidates, room, rest⟩

/-- The example listing has no more candidates than lines. -/
theorem few_twoAccesses (matched : List Char → Bool) :
    {i | IsCandidateLine matched twoAccesses i}.ncard ≤ N_ADDRESS := by
  have three : {i | IsCandidateLine matched twoAccesses i} ⊆ ↑(Finset.range 3) := by
    intro i candidate
    rw [Finset.coe_range]
    exact (show i < 3 from candidate.listed)
  have most := Set.ncard_le_ncard three (Finset.finite_toSet _)
  rw [Set.ncard_coe_finset, Finset.card_range] at most
  simp only [N_ADDRESS]
  omega

/-- The search for what an expression denotes; the empty one is found everywhere. -/
def searches (pattern s : List Char) : Bool := pattern = [] || Ere.grep pattern s

/-- The two listings that `objdump` writes of a subproject that is the whole kernel. -/
def twoListings (name : List Char) : Option (List Char) :=
  if name = fsObjd then some ('\n' :: twoAccesses.flatMap (· ++ ['\n']))
  else if name = vmlinux then some (twoAccesses.flatMap (· ++ ['\n'])) else none

set_option maxRecDepth 8192 in
/-- The script finds the candidate of `twoAccesses`, and the shell loads it. -/
theorem work_loaded_two : ∃ selected loaded places, SelectsFrom twoAccesses selected ∧
    load (workScript searches [] twoListings).files true true "load fs.addr".toList
      "fs.addr".toList ⟨fun _ => nul, fun _ => 0⟩ = .ok loaded ∧
    CandidatePlaces selected twoAccesses places ∧ places.length ≤ N_ADDRESS ∧
    loaded.address.map (hex16 '0') = places.map (fun i => addressText (twoAccesses.getD i [])) ∧
    loaded.addresscnt = decimal places.length := by
  have posix : Posix searches := by
    intro pattern e denoted s
    have some_pattern : pattern ≠ [] := by
      intro blank
      rw [blank] at denoted
      cases denoted
    rw [searches, decide_eq_false some_pattern, Bool.false_or]
    exact posix_grep pattern e denoted s
  have alone (name : List Char) (function : IsFunctionOf twoAccesses name) :
      (Ere.read name).isSome := by
    have listed := (@mem_printedNames twoAccesses _ name plainLine_twoAccesses (.inl rfl)).mpr
      function
    have names : printedNames (fun _ => true)
        (fgetsLines BUF_LEN (twoAccesses.flatMap (· ++ ['\n']))) = [['f']] := by decide
    rw [names, List.mem_singleton] at listed
    rw [listed]
    decide
  exact work_loaded posix (fun name => rfl) plainLine_twoAccesses plainLine_twoAccesses (.inl rfl)
    (.inl rfl) (by decide) alone rfl rfl (fun selected _ => few_twoAccesses selected) []
    ⟨fun _ => nul, fun _ => 0⟩

/-! ## The driver -/

/-- The parameter is not loaded. -/
theorem Files.iParam_loaded (f : Files) (pieces : List (List Byte)) (count : Nat) :
    (f.loaded pieces count).iParam = f.iParam := by
  show (f.writePieces 0 pieces).1.iParam = f.iParam
  rw [f.writePieces_eq]
  rfl

/-- The list that the driver has got is the one of the shell. -/
theorem Files.entries_loaded (f : Files) {pieces : List (List Byte)} {words : List Word}
    (bytes : pieces.flatten = words.flatMap wordBytes) (few : words.length ≤ N_ADDRESS) :
    (f.loaded pieces words.length).uAddresscnt.toNat = words.length ∧
      (f.loaded pieces words.length).iParam = f.iParam ∧
      ∀ (k : Nat) (inside : k < words.length),
        (f.loaded pieces words.length).entry k = words[k] := by
  refine ⟨?_, f.iParam_loaded pieces words.length, ?_⟩
  · show (BitVec.ofNat 32 words.length).toNat = words.length
    simp only [N_ADDRESS] at few
    rw [BitVec.toNat_ofNat, Nat.mod_eq_of_lt (by omega)]
  · intro k inside
    have written : (f.loaded pieces words.length).entry k =
        (f.write (.address 0 (words.flatMap wordBytes))).entry k := by
      rw [← bytes, ← f.writePieces_eq]
      rfl
    rw [written, f.entry_write few inside]

/-- The tools put together: the shell loads what the analyzer has printed of a listing, and when
`start` returns after that, the table lists the addresses that stand on the candidates, in the order
of the listing; the entries that the parameter asks for are armed; and the memory is the one before
it with `INT3` at their addresses and nowhere else. -/
theorem listing_planted (plain : ∀ line ∈ lines, PlainLine line) (whole : IsFileOf lines file)
    (few : {i | IsCandidateLine matched lines i}.ncard ≤ N_ADDRESS)
    (distinct : Set.InjOn (fun i => addressText (lines.getD i []))
      {i | IsCandidateLine matched lines i})
    {cmd argument : List Char} {files : List Char → Option (List Char)}
    (output : files (loadName cmd argument) = some (parse .INSTR matched file)) (g : Globals)
    (f : Files) (bp : Bp) :
    ∃ loaded places, load files true true cmd argument g = .ok loaded ∧
      CandidatePlaces matched lines places ∧ loaded.addresscnt = decimal places.length ∧
      ∀ pieces : List (List Byte), pieces.flatten = loaded.address.flatMap wordBytes →
        ∀ (random : Nat → BitVec 32) (c : Start),
          ReturnsTo random (starting (f.loaded pieces places.length) bp) c →
          (∀ (k : Nat) (inside : k < places.length),
            hex16 '0' (c.bp.bpAddr k) = addressText (lines.getD places[k] [])) ∧
          Requested places.length f.iParam.toInt (armedBelow c.bp places.length) ∧
          c.bp.text = overlay bp.text INT3
            {a | ∃ k ∈ armedBelow c.bp places.length, c.bp.bpAddr k = a} := by
  obtain ⟨loaded, places, ok, candidates, addresses, number⟩ :=
    @load_candidates matched lines file plain whole cmd argument files output g
  refine ⟨loaded, places, ok, candidates, number, fun pieces bytes random c returns => ?_⟩
  have length : loaded.address.length = places.length := by
    have both := congrArg List.length addresses
    rwa [List.length_map, List.length_map] at both
  rw [candidates.length, ← length] at few
  rw [← length] at returns
  obtain ⟨size, param, entry⟩ := f.entries_loaded bytes few
  have small : (f.loaded pieces loaded.address.length).uAddresscnt.toNat ≤ N_ADDRESS := by
    rw [size]
    exact few
  have entries : (f.loaded pieces loaded.address.length).entries = places.length :=
    (entries_eq small).trans (size.trans length)
  obtain ⟨addr, overlays⟩ := list_of_returnsTo small returns
  have requested := requested_of_returnsTo (.inl small) returns
  rw [entries] at addr overlays requested
  rw [param] at requested
  have text (k : Nat) (inside : k < places.length) :
      hex16 '0' ((f.loaded pieces loaded.address.length).entry k) =
        addressText (lines.getD places[k] []) := by
    have here : k < (loaded.address.map (hex16 '0')).length := by
      rw [List.length_map, length]
      exact inside
    have each := List.getElem_of_eq addresses here
    rw [List.getElem_map, List.getElem_map] at each
    rw [entry k (length ▸ inside)]
    exact each
  have member (k : Nat) (inside : k < places.length) :
      places[k] ∈ {i | IsCandidateLine matched lines i} :=
    (candidates.exactly _).mp (List.getElem_mem inside)
  have once : ∀ i < places.length, ∀ j < places.length,
      (f.loaded pieces loaded.address.length).entry i =
        (f.loaded pieces loaded.address.length).entry j → i = j := by
    intro i below j below' same
    have texts := congrArg (hex16 '0') same
    rw [text i below, text j below'] at texts
    have place := distinct (member i below) (member j below') texts
    exact (candidates.nodup.getElem_inj_iff).mp place
  have shown := overlays once
  have count : c.bp.bpCount = (f.loaded pieces loaded.address.length).uAddresscnt.toInt :=
    (returns.2.invariant (fun c inv => inv.step (.inl small))
      (startInvariant_starting (f.loaded pieces loaded.address.length) bp)).count
  have planted : c.bp.planted = {a | ∃ k ∈ armedBelow c.bp places.length, c.bp.bpAddr k = a} := by
    ext a
    have sign := shown.count
    have whole : (places.length : Int) = c.bp.bpCount := by
      rw [count] at sign ⊢
      unfold Files.entries at entries
      omega
    constructor
    · intro present
      obtain ⟨k, armed, here⟩ := present
      have below := armed.1
      exact ⟨k, ⟨by omega, armed.2⟩, here⟩
    · intro present
      obtain ⟨k, armed, here⟩ := present
      have below := armed.1
      exact ⟨k, ⟨by omega, armed.2⟩, here⟩
  refine ⟨fun k inside => addr k inside ▸ text k inside, requested, ?_⟩
  rw [← planted]
  exact shown.text

/-- No parameter has been given. -/
def noParameter : Files := ⟨fun _ => 0, 0, -1⟩

set_option maxRecDepth 2048 in
/-- Of the two accesses the one off the stack is found, and a breakpoint is planted there. -/
theorem listing_planted_two :
    ∃ loaded places c, load (fun _ => some (parse .INSTR (fun _ => true)
          (twoAccesses.flatMap (· ++ ['\n'])))) true true "load".toList []
        ⟨fun _ => nul, fun _ => 0⟩ =
        .ok loaded ∧
      CandidatePlaces (fun _ => true) twoAccesses places ∧
      ReturnsTo (fun _ => 0) (starting (noParameter.loaded
        [loaded.address.flatMap wordBytes] places.length) (.loaded noops)) c ∧
      c.bp.text = overlay noops INT3
        {a | ∃ k ∈ armedBelow c.bp places.length, c.bp.bpAddr k = a} := by
  have below (i : Nat) (candidate : IsCandidateLine (fun _ => true) twoAccesses i) : i < 3 :=
    candidate.listed
  have few := few_twoAccesses (fun _ => true)
  have apart : ∀ i < 3, ∀ j < 3,
      addressText (twoAccesses.getD i []) = addressText (twoAccesses.getD j []) → i = j := by decide
  obtain ⟨loaded, places, ok, candidates, number, planted⟩ :=
    @listing_planted (fun _ => true) twoAccesses _ plainLine_twoAccesses (.inl rfl) few
      (fun i here j there same => apart i (below i here) j (below j there) same) "load".toList []
      (fun _ => some (parse .INSTR (fun _ => true) (twoAccesses.flatMap (· ++ ['\n']))))
      rfl ⟨fun _ => nul, fun _ => 0⟩ noParameter (.loaded noops)
  have bounded : Bounded (noParameter.loaded [loaded.address.flatMap wordBytes] places.length) := by
    left
    rw [candidates.length] at few
    show (BitVec.ofNat 32 places.length).toNat ≤ N_ADDRESS
    simp only [N_ADDRESS] at few ⊢
    rw [BitVec.toNat_ofNat, Nat.mod_eq_of_lt (by omega)]
    exact few
  have negative : (noParameter.loaded [loaded.address.flatMap wordBytes] places.length).iParam.toInt
      ≤ 0 := by
    show (-1 : BitVec 32).toInt ≤ 0
    decide
  obtain ⟨c, returns⟩ := returns_of_none bounded (.loaded noops) (fun _ => 0) (.inl negative)
  exact ⟨loaded, places, c, ok, candidates, returns,
    (planted _ List.flatten_singleton (fun _ => 0) c returns).2.2⟩

end Drddr
