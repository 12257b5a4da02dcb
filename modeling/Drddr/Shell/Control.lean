import Drddr.Driver.Sessions
import Drddr.Driver.Undisturbed
import Drddr.Shell.Console
import Drddr.Toolchain

/-!
# The shell and the driver

The commands of a script become writes to the files of the driver, and these the sessions that its
control thread starts and stops, while handlers run. When a script has stopped what it has started,
the memory is what it was.
-/

namespace Drddr

open Machine Shell

/-! ## Serving the writes -/

/-- The buffer of `ctrl`, and the other files of the driver. -/
structure Served where
  mybuf : Nat → Byte
  files : Files

/-- A write of the shell, and what begins with it. `start` resets the parameter. -/
def Served.serve (s : Served) : Write → Served × List DriverEvent
  | .ctrl text =>
    let bytes := bytesOf text
    let written := writeCtrl s.mybuf bytes bytes.length
    if written.2 = some .start then
      (⟨written.1, { s.files with iParam := -1 }⟩, [.start s.files.args])
    else if written.2 = some .stop then (⟨written.1, s.files⟩, [.stop])
    else (⟨written.1, s.files⟩, [])
  | .list words =>
    ({ s with files := s.files.loaded [words.flatMap wordBytes] words.length }, [])
  | .param x => ({ s with files := s.files.write (.param (BitVec.ofInt 32 x)) }, [])

/-- The driver's files after some writes. -/
def Served.after (s : Served) (writes : List Write) : Served :=
  writes.foldl (fun s write => (s.serve write).1) s

/-- The control writes among some writes of the shell. -/
def Served.requests (s : Served) : List Write → List DriverEvent
  | [] => []
  | write :: writes => (s.serve write).2 ++ (s.serve write).1.requests writes

/-- A control write begins. -/
def DriverEvent.isRequest : DriverEvent → Bool
  | .start _ | .stop => true
  | _ => false

variable {s : Served} {writes : List Write}

/-- The state after one more write is that after the others, with this one served. -/
theorem after_concat (s : Served) (writes : List Write) (write : Write) :
    s.after (writes ++ [write]) = ((s.after writes).serve write).1 := List.foldl_append

/-- The requests of some writes end with those of the last one. -/
theorem requests_concat (s : Served) (writes : List Write) (write : Write) :
    s.requests (writes ++ [write]) = s.requests writes ++ ((s.after writes).serve write).2 := by
  induction writes generalizing s with
  | nil => exact List.append_nil _
  | cons first writes ih =>
    rw [List.cons_append, Served.requests, ih, Served.requests, List.append_assoc]
    rfl

/-- A write of `start` requests a session. -/
theorem serve_start (s : Served) :
    (s.serve (.ctrl "start")).2 = [.start s.files.args] ∧
      (s.serve (.ctrl "start")).1.files = { s.files with iParam := -1 } := by
  have command := (@commandText_writeCtrl (bytesOf "start") (bytesOf "start").length s.mybuf
    (by decide) le_rfl).1
  have start : commandOf ((bytesOf "start").takeWhile isKept) = .start := by decide
  rw [start] at command
  unfold Served.serve
  simp only [if_pos command, and_self]

/-- A write of `stop` requests the end of a session. -/
theorem serve_stop (s : Served) :
    (s.serve (.ctrl "stop")).2 = [.stop] ∧ (s.serve (.ctrl "stop")).1.files = s.files := by
  have command := (@commandText_writeCtrl (bytesOf "stop") (bytesOf "stop").length s.mybuf
    (by decide) le_rfl).1
  have stop : commandOf ((bytesOf "stop").takeWhile isKept) = .stop := by decide
  rw [stop] at command
  have other : (writeCtrl s.mybuf (bytesOf "stop") (bytesOf "stop").length).2 ≠ some .start := by
    rw [command]
    decide
  unfold Served.serve
  simp only [if_neg other, if_pos command, and_self]

/-! ## What is written to `ctrl` -/

/-- The text of a write to `ctrl`. -/
def Shell.Write.ctrlText : Write → Option String
  | .ctrl text => some text
  | _ => none

/-- Only `start` and `stop` are written to `ctrl`. -/
def Kinds (writes : List Write) : Prop :=
  ∀ text ∈ writes.filterMap Write.ctrlText, text = "start" ∨ text = "stop"

/-- The writes to `ctrl` are of the two kinds just when the last one is and those before it are. -/
theorem kinds_concat {write : Write} : Kinds (writes ++ [write]) ↔
    Kinds writes ∧ ∀ text, write = .ctrl text → text = "start" ∨ text = "stop" := by
  unfold Kinds
  rw [List.filterMap_append]
  constructor
  · intro kinds
    refine ⟨fun text member => kinds text (List.mem_append_left _ member), fun text same => ?_⟩
    rw [same] at kinds
    exact kinds text (List.mem_append_right _ List.mem_cons_self)
  · intro both text member
    rcases List.mem_append.mp member with before | here
    · exact both.1 text before
    · obtain ⟨write', single, same⟩ := List.mem_filterMap.mp here
      rw [List.mem_singleton.mp single] at same
      apply both.2 text
      cases write with
      | ctrl other => exact congrArg Write.ctrl (Option.some.inj same)
      | list | param => cases same

/-- What is written first is of the two kinds if all writes are. -/
theorem Kinds.front {before : List Write} (kinds : Kinds writes) (front : before <+: writes) :
    Kinds before := by
  intro text member
  obtain ⟨write, inside, same⟩ := List.mem_filterMap.mp member
  exact kinds text (List.mem_filterMap.mpr ⟨write, front.subset inside, same⟩)

/-- No request makes the shell write anything else to `ctrl`. -/
theorem Kinds.perform {d : Debugfs} {files : List Char → Option (List Char)} {c : Console}
    (kinds : Kinds c.writes) (r : Request) : Kinds (c.perform d files r).writes := by
  have other {write : Write} (another : ∀ text, write ≠ .ctrl text) : Kinds (c.writes ++ [write]) :=
    kinds_concat.mpr ⟨kinds, fun text same => absurd same (another text)⟩
  cases r with
  | start | stop =>
    simp only [Console.perform, Console.control]
    split
    · refine kinds_concat.mpr ⟨kinds, fun text same => ?_⟩
      cases same
      decide
    · exact kinds
  | exit | help | unknown => exact kinds
  | load cmd argument =>
    simp only [Console.perform]
    split
    · exact kinds
    · exact other fun text => Write.noConfusion
  | param x =>
    cases x with
    | none => exact kinds
    | some x =>
      simp only [Console.perform]
      split
      · exact other fun text => Write.noConfusion
      · exact kinds
  | status =>
    simp only [Console.perform]
    split
    · exact kinds
    · exact kinds

/-- No round of the shell writes anything else to `ctrl`. -/
theorem Kinds.ask {d : Debugfs} {files : List Char → Option (List Char)} {c : Console}
    (kinds : Kinds c.writes) (r : Request) : Kinds (c.ask d files r).writes := by
  have done : Kinds (c.perform d files r).writes := kinds.perform r
  unfold Console.ask
  by_cases running : c.status = .running
  · rw [if_pos running]
    by_cases goes : (c.perform d files r).status = .running
    · simp only [if_pos goes]
      exact done
    · simp only [if_neg goes]
      exact done
  · rw [if_neg running]
    exact kinds

/-- The shell writes nothing else to `ctrl`, whatever stands in its input. -/
theorem kinds_main (d : Debugfs) (files : List Char → Option (List Char)) (g : Globals)
    (stdin : List Char) : Kinds (main d files g stdin).writes := by
  have rounds (lines : List (List Char)) (c : (Nat → Char) × Console) (kinds : Kinds c.2.writes) :
      Kinds (lines.foldl (mainRound d files) c).2.writes := by
    induction lines generalizing c with
    | nil => exact kinds
    | cons line lines ih => exact ih (mainRound d files c line) (kinds.ask _)
  have start : Kinds (Console.start g).writes := fun text member => absurd member List.not_mem_nil
  exact rounds _ (fun _ => nul, .start g) start

/-! ## The lists -/

/-- A list without repetitions that the table holds. -/
def Shell.Write.Distinct : Write → Prop
  | .list words => words.Nodup ∧ words.length ≤ N_ADDRESS
  | _ => True

/-- A list that is loaded has no address twice if its words are distinct. -/
theorem distinct_loaded (f : Files) {words : List Word} (nodup : words.Nodup)
    (few : words.length ≤ N_ADDRESS) :
    (f.loaded [words.flatMap wordBytes] words.length).args.Distinct := by
  obtain ⟨size, -, entry⟩ := @Files.entries_loaded f [words.flatMap wordBytes] words
    List.flatten_singleton few
  intro i below j below' same
  have inside : i < words.length := Nat.lt_of_lt_of_eq below size
  have inside' : j < words.length := Nat.lt_of_lt_of_eq below' size
  have equal : words[i] = words[j] := (entry i inside).symm.trans (same.trans (entry j inside'))
  exact nodup.getElem_inj_iff.mp equal

/-- An entry is read from the bytes of the file. -/
theorem Files.entry_congr {f f' : Files} (address : f'.address = f.address) (i : Nat) :
    f'.entry i = f.entry i := by
  unfold Files.entry
  rw [address]

/-- The parameter is not part of the list. -/
theorem distinct_congr {f f' : Files} (address : f'.address = f.address)
    (count : f'.uAddresscnt = f.uAddresscnt) (distinct : f.args.Distinct) : f'.args.Distinct := by
  have entry := Files.entry_congr address
  intro i below j below' same
  have inside : i < f.args.addresscnt := Nat.lt_of_lt_of_eq below (congrArg BitVec.toNat count)
  have inside' : j < f.args.addresscnt := Nat.lt_of_lt_of_eq below' (congrArg BitVec.toNat count)
  exact distinct i inside j inside' ((entry i).symm.trans (same.trans (entry j)))

/-- A write keeps the list of the files without repetitions. -/
theorem Served.serve_distinct {write : Write} (distinct : s.files.args.Distinct)
    (here : write.Distinct) : (s.serve write).1.files.args.Distinct ∧
      ∀ args, .start args ∈ (s.serve write).2 → args.Distinct := by
  cases write with
  | ctrl text =>
    simp only [Served.serve]
    split_ifs
    · refine ⟨@distinct_congr s.files _ rfl rfl distinct, fun args member => ?_⟩
      cases List.mem_singleton.mp member
      exact distinct
    · refine ⟨distinct, fun args member => ?_⟩
      cases List.mem_singleton.mp member
    · exact ⟨distinct, fun args member => absurd member List.not_mem_nil⟩
  | list words =>
    exact ⟨distinct_loaded s.files here.1 here.2, fun args member => absurd member List.not_mem_nil⟩
  | param x =>
    exact ⟨@distinct_congr s.files _ rfl rfl distinct,
      fun args member => absurd member List.not_mem_nil⟩

/-- Every session that is started has a list without repetitions. -/
theorem Served.requests_distinct (distinct : s.files.args.Distinct)
    (lists : ∀ write ∈ writes, write.Distinct) {args : StartArgs}
    (started : .start args ∈ s.requests writes) : args.Distinct := by
  induction writes generalizing s with
  | nil => exact absurd started List.not_mem_nil
  | cons write writes ih =>
    obtain ⟨next, here⟩ := s.serve_distinct distinct (lists write List.mem_cons_self)
    rcases List.mem_append.mp started with now | later
    · exact here args now
    · exact ih next (fun write member => lists write (List.mem_cons_of_mem _ member)) later

/-! ## What a session starts with -/

/-- The list that is loaded. -/
def Shell.Write.words : Write → Option (List Word)
  | .list words => some words
  | _ => none

/-- The parameter after a write. -/
def Shell.Write.paramAfter (x : Int) : Write → Int
  | .param y => y
  | .ctrl text => if text = "start" then -1 else x
  | .list _ => x

/-- The list that has been loaded last. -/
def lastList (writes : List Write) : Option (List Word) :=
  (writes.filterMap Write.words).getLast?

/-- The parameter that has been set since the last start, or else what `start` leaves. -/
def lastParam (writes : List Write) (before : Int) : Int :=
  writes.foldl Write.paramAfter before

/-- The parameters are numbers that an `int` holds. -/
def Ints (writes : List Write) : Prop := ∀ x, .param x ∈ writes → -2 ^ 31 ≤ x ∧ x < 2 ^ 31

/-- The files hold a list. -/
structure Files.Holds (f : Files) (words : List Word) : Prop where
  count : f.uAddresscnt.toNat = words.length
  entry : ∀ (k : Nat) (inside : k < words.length), f.entry k = words[k]

/-- The list that the files hold does not depend on the parameter. -/
theorem Files.Holds.congr {f f' : Files} {words : List Word} (holds : f.Holds words)
    (address : f'.address = f.address) (count : f'.uAddresscnt = f.uAddresscnt) :
    f'.Holds words := by
  constructor
  · rw [count]
    exact holds.count
  · intro k inside
    rw [Files.entry_congr address k]
    exact holds.entry k inside

/-- After some writes the files hold the list that has been loaded last. -/
theorem Served.after_holds (s : Served) (kinds : Kinds writes) {words : List Word}
    (last : lastList writes = some words) (few : words.length ≤ N_ADDRESS) :
    (s.after writes).files.Holds words := by
  induction writes using List.reverseRecOn with
  | nil => cases last
  | append_singleton writes write ih =>
    obtain ⟨earlier, kind⟩ := kinds_concat.mp kinds
    rw [after_concat]
    unfold lastList at last ih
    rw [List.filterMap_append] at last
    cases write with
    | ctrl text =>
      have nothing := List.append_nil (writes.filterMap Write.words)
      have before := ih earlier (nothing ▸ last)
      rcases kind text rfl with rfl | rfl
      · rw [(serve_start _).2]
        exact before.congr rfl rfl
      · rw [(serve_stop _).2]
        exact before
    | list words' =>
      have here : [Write.list words'].filterMap Write.words = [words'] := rfl
      rw [here, List.getLast?_concat] at last
      cases last
      obtain ⟨count, -, entry⟩ := @Files.entries_loaded (s.after writes).files
        [words.flatMap wordBytes] words List.flatten_singleton few
      exact ⟨count, entry⟩
    | param x =>
      have nothing := List.append_nil (writes.filterMap Write.words)
      exact (ih earlier (nothing ▸ last)).congr rfl rfl

/-- After some writes the parameter is that which has been set since the last start. -/
theorem Served.after_param (s : Served) (kinds : Kinds writes) (ints : Ints writes) :
    (s.after writes).files.iParam.toInt = lastParam writes s.files.iParam.toInt := by
  induction writes using List.reverseRecOn with
  | nil => rfl
  | append_singleton writes write ih =>
    obtain ⟨earlier, kind⟩ := kinds_concat.mp kinds
    have before := ih earlier fun x member => ints x (List.mem_append_left _ member)
    have one : lastParam (writes ++ [write]) s.files.iParam.toInt =
        write.paramAfter (lastParam writes s.files.iParam.toInt) := List.foldl_append
    rw [after_concat, one]
    cases write with
    | ctrl text =>
      rcases kind text rfl with rfl | rfl
      · rw [(serve_start _).2]
        rfl
      · rw [(serve_stop _).2, before]
        rfl
    | list words =>
      rw [← before]
      exact congrArg BitVec.toInt (Files.iParam_loaded _ _ _)
    | param x =>
      have bounds := ints x (List.mem_append_right _ List.mem_cons_self)
      show (BitVec.ofInt 32 x).toInt = x
      rw [BitVec.toInt_ofInt]
      exact Int.bmod_eq_of_le (by omega) (by omega)

/-! ## Stopping -/

/-- What has been written to `ctrl` last. -/
def lastCtrl (writes : List Write) : Option String := (writes.filterMap Write.ctrlText).getLast?

/-- Writes that start and stop, of which the last one does not start, begin nothing or stop
last. -/
theorem Served.requests_ends (kinds : Kinds writes) (last : lastCtrl writes ≠ some "start") :
    s.requests writes = [] ∨ ∃ before, s.requests writes = before ++ [.stop] := by
  induction writes using List.reverseRecOn with
  | nil => exact .inl rfl
  | append_singleton writes write ih =>
    obtain ⟨earlier, kind⟩ := kinds_concat.mp kinds
    rw [requests_concat]
    unfold lastCtrl at last ih
    rw [List.filterMap_append] at last
    cases write with
    | ctrl text =>
      have here : [Write.ctrl text].filterMap Write.ctrlText = [text] := rfl
      rw [here, List.getLast?_concat] at last
      rcases kind text rfl with rfl | rfl
      · exact absurd rfl last
      · exact .inr ⟨s.requests writes, by rw [(serve_stop _).1]⟩
    | list | param =>
      have nothing := List.append_nil (writes.filterMap Write.ctrlText)
      have ends := ih earlier (nothing ▸ last)
      simp only [Served.serve, List.append_nil]
      exact ends

/-- `stop` is on its way, or over. -/
inductive Halting : Bool → DriverPc → Prop where
  | idle : Halting false .idle
  | clean (running : Bool) : Halting running (.clean none)
  | poll (running : Bool) : Halting running (.poll none)
  | wpClean (running : Bool) : Halting running (.wpClean none)
  | halt (running : Bool) : Halting running (.halt none)

/-- A `stop` goes on until it is over. -/
theorem Halting.step {c c' : Driver} {event : DriverEvent} (halting : Halting c.running c.control)
    (other : event.isRequest = false) (stepped : driverStep c event = some c') :
    Halting c'.running c'.control := by
  cases event with
  | start | stop => cases other
  | trap ip =>
    cases stepped
    exact halting
  | handler k input =>
    obtain ⟨moved, -, rfl⟩ := Option.map_eq_some_iff.mp stepped
    exact halting
  | control draws =>
    obtain ⟨⟨g, running, pc⟩, moved, rfl⟩ := Option.map_eq_some_iff.mp stepped
    have move := controlStep_move moved
    show Halting running pc
    generalize c.control = before at halting move
    generalize c.running = before' at halting move
    cases halting with
    | idle => cases move
    | clean =>
      cases move
      exact .poll _
    | poll =>
      cases move with
      | drained => exact .wpClean _
      | wait => exact .poll _
    | wpClean =>
      cases move
      exact .halt _
    | halt =>
      cases move
      exact .idle

/-- A `stop` begins with its control write. -/
theorem halting_stop {c c' : Driver} (stepped : driverStep c .stop = some c') :
    Halting c'.running c'.control := by
  cases control : c.control with
  | idle =>
    simp only [driverStep, control] at stepped
    cases stepped
    cases running : c.running with
    | true => exact .clean _
    | false => exact .idle
  | _ =>
    simp only [driverStep, control] at stepped
    cases stepped

/-- Without another control write a `stop` goes on or is over. -/
theorem Halting.run {c c' : Driver} {events : List DriverEvent}
    (halting : Halting c.running c.control)
    (others : ∀ event ∈ events, ¬event.isRequest = true)
    (ran : Machine.run driverStep c events = some c') : Halting c'.running c'.control := by
  have admitted : Admits driverStep (fun _ event => event.isRequest = false) c events :=
    admits_of_forall (fun event member _ => Bool.eq_false_of_not_eq_true (others event member)) c
  exact @run_admitted _ _ driverStep _ (fun c => Halting c.running c.control)
    (fun _ _ _ halting other stepped => halting.step other stepped) _ _ _ halting admitted ran

/-- A run from the loading of the module on whose last control write, if any, is a `stop`. -/
theorem halting_of_ends {text : Memory} {wp : WpTable} {events : List DriverEvent} {t : Driver}
    (ends : events.filter DriverEvent.isRequest = [] ∨
      ∃ before, events.filter DriverEvent.isRequest = before ++ [.stop])
    (ran : run driverStep (loadDriver text wp) events = some t) :
    Halting t.running t.control := by
  rcases ends with quietly | ⟨before, last⟩
  · have start : Halting (loadDriver text wp).running (loadDriver text wp).control := .idle
    exact start.run (List.filter_eq_nil_iff.mp quietly) ran
  · obtain ⟨past, rest, rfl, -, one⟩ := List.filter_eq_append_iff.mp last
    obtain ⟨quiet, later, rfl, -, -, quietly⟩ := List.filter_eq_cons_iff.mp one
    rw [run_append] at ran
    obtain ⟨c, -, ran⟩ := Option.bind_eq_some_iff.mp ran
    rw [run_append] at ran
    obtain ⟨c', -, ran⟩ := Option.bind_eq_some_iff.mp ran
    obtain ⟨c'', stepped, ran⟩ := run_cons_eq_some.mp ran
    exact (halting_stop stepped).run (List.filter_eq_nil_iff.mp quietly) ran

/-- A handler that comes to the locked section of `bp_add(-1)` behind `bp_clean` finds no free entry
there. -/
def HandlersOrderly (s : Driver) : DriverEvent → Prop
  | .handler k input => Orderly s (.handler k input)
  | _ => True

instance (s : Driver) : (event : DriverEvent) → Decidable (HandlersOrderly s event)
  | .handler k input => inferInstanceAs (Decidable (Orderly s (.handler k input)))
  | .trap _ | .start _ | .stop | .control _ => isTrue trivial

set_option maxRecDepth 8192 in
/-- A list is loaded, a session is started and stopped. -/
theorem writes_three : (main allOpen oneLine unread "load\nstart\nend\n".toList).writes =
    [.list [0x1000], .ctrl "start", .ctrl "stop"] := by rfl

/-- The `start` that a script gives begins a session with the list that has been loaded last and
the parameter that has been set since the `start` before, or -1. -/
theorem session_args (d : Debugfs) (files : List Char → Option (List Char)) (g : Globals)
    (stdin : List Char) (s : Served) {before : List Write}
    (started : before ++ [.ctrl "start"] <+: (main d files g stdin).writes) (ints : Ints before)
    {words : List Word} (loaded : lastList before = some words)
    (few : words.length ≤ N_ADDRESS) :
    ∃ args : StartArgs,
      s.requests (before ++ [.ctrl "start"]) = s.requests before ++ [.start args] ∧
      args.addresscnt = words.length ∧
      (∀ (k : Nat) (inside : k < words.length), args.address k = words[k]) ∧
      args.param = lastParam before s.files.iParam.toInt := by
  have kinds : Kinds before :=
    (kinds_main d files g stdin).front ((List.prefix_append _ _).trans started)
  have holds := s.after_holds kinds loaded few
  refine ⟨(s.after before).files.args, ?_, holds.count, holds.entry, s.after_param kinds ints⟩
  rw [requests_concat, (serve_start _).1]

/-- The session of the script has the one address of the list, and no parameter. -/
theorem session_args_three : ∃ args : StartArgs,
    (Served.mk (fun _ => 0) noParameter).requests [.list [0x1000], .ctrl "start"] =
      (Served.mk (fun _ => 0) noParameter).requests [.list [0x1000]] ++ [.start args] ∧
    args.addresscnt = 1 ∧ args.address 0 = 0x1000 ∧ args.param = -1 := by
  obtain ⟨args, begun, count, address, param⟩ :=
    @session_args allOpen oneLine unread "load\nstart\nend\n".toList
      ⟨fun _ => 0, noParameter⟩ [.list [0x1000]]
      (by rw [writes_three]; exact ⟨[.ctrl "stop"], rfl⟩)
      (fun x member => by cases List.mem_singleton.mp member) [0x1000] rfl (by decide)
  exact ⟨args, begun, count, address 0 (by decide), param⟩

/-- Whatever commands the shell is given, and whatever handlers run meanwhile, if the lists that are
loaded have no repetitions and no handler plants behind `bp_clean`: the memory is the one in which
the module was loaded with `INT3` at the planted addresses. When all commands have been served and
the last of `start` and `end` among them was not a `start`, nothing is planted any more. -/
theorem script_restores (d : Debugfs) (files : List Char → Option (List Char)) (g : Globals)
    (stdin : List Char) (s : Served) (distinct : s.files.args.Distinct)
    (lists : ∀ write ∈ (main d files g stdin).writes, write.Distinct)
    (text : Memory) (wp : WpTable) (events : List DriverEvent) (t : Driver)
    (served : events.filter DriverEvent.isRequest <+: s.requests (main d files g stdin).writes)
    (handlers : Admits driverStep HandlersOrderly (loadDriver text wp) events)
    (ran : run driverStep (loadDriver text wp) events = some t) :
    t.shared.bp.text = overlay text INT3 t.shared.bp.planted ∧
      (events.filter DriverEvent.isRequest = s.requests (main d files g stdin).writes →
        lastCtrl (main d files g stdin).writes ≠ some "start" → t.control = .idle →
        t.shared.bp.planted = ∅ ∧ t.shared.bp.text = text) := by
  have orderly : Admits driverStep Orderly (loadDriver text wp) events := by
    refine handlers.imp fun event member c ok => ?_
    cases event with
    | start args =>
      have request : .start args ∈ events.filter DriverEvent.isRequest :=
        List.mem_filter.mpr ⟨member, rfl⟩
      exact s.requests_distinct distinct lists (served.subset request)
    | handler k input => exact ok
    | trap | stop | control => trivial
  obtain ⟨inv, -, -⟩ := sessionsInvariant_run orderly ran
  refine ⟨inv.overlay.1, fun all last idle => inv.overlay.2 ?_⟩
  have ends := s.requests_ends (kinds_main d files g stdin) last
  rw [← all] at ends
  have halting := halting_of_ends ends ran
  rw [idle] at halting
  unfold Driver.launched
  rw [idle]
  cases running : t.running with
  | false => rfl
  | true =>
    rw [running] at halting
    cases halting

/-- The files that the driver starts with when one address is loaded. -/
def oneListed : Files := noParameter.loaded [[(0x1000 : Word)].flatMap wordBytes] 1

/-- The session, in which a breakpoint is hit. -/
def oneSession : List DriverEvent :=
  .start oneListed.args :: List.replicate 10 (.control []) ++
    .trap 0x1001 :: .stop :: List.replicate 4 (.control [])

/-- Nothing is left of the session of the script. -/
theorem script_restores_three :
    ∃ t, run driverStep (loadDriver noops .loaded) oneSession = some t ∧
      t.shared.bp.planted = ∅ ∧ t.shared.bp.text = noops := by
  have distinct : noParameter.args.Distinct := fun i below => absurd below (Nat.not_lt_zero i)
  have lists : ∀ write ∈ (main allOpen oneLine unread "load\nstart\nend\n".toList).writes,
      write.Distinct := by
    rw [writes_three]
    intro write member
    simp only [List.mem_cons, List.not_mem_nil, or_false] at member
    rcases member with rfl | rfl | rfl
    · exact ⟨List.nodup_singleton _, by decide⟩
    · trivial
    · trivial
  have served : oneSession.filter DriverEvent.isRequest =
      (Served.mk (fun _ => 0) noParameter).requests
        (main allOpen oneLine unread "load\nstart\nend\n".toList).writes := by
    rw [writes_three]
    rfl
  have last : lastCtrl (main allOpen oneLine unread "load\nstart\nend\n".toList).writes ≠
      some "start" := by
    rw [writes_three]
    decide
  refine ⟨_, rfl, ?_⟩
  exact (script_restores allOpen oneLine unread _ ⟨fun _ => 0, noParameter⟩ distinct lists noops
    .loaded oneSession _ (served ▸ List.prefix_rfl) (by decide) rfl).2 served last rfl

end Drddr
